import Cmw.Config.RoleAttributes
import Cmw.Library.Ordered
import Cmw.Library.Run
import Cmw.Library.Table
import Mathlib.Data.List.Lex
import Mathlib.Data.Prod.Lex

/-!
# The class loader

class_loader/class_loader.cpp and class_loader/utility: the libraries that are open, the
factories of the classes they register, and the loaders, each with two counts.  A loader is
the number it was made with.  What `dlopen` does is not in the source: it fails, or the static
objects of the library register classes, each by the name of its base and its own.

A library is closed when no factory in the map has its path any more, and a loader has let go
of it when its count is back at 0.
-/

namespace Cmw
namespace ClassLoader

open Config
open Library
open Library.Ordered

/-! ## The factories -/

/-- `AbstractClassFactoryBase` -/
structure ClassFactory where
  relativeClassLoaders : List (Option Nat) := []
  libraryPath : Str := []
  className : Str
  baseClassName : Str

namespace ClassFactory

/-- `AddOwnedClassLoader(loader)`, where `path` has the paths of the loaders. -/
def addOwnedClassLoader (f : ClassFactory) (path : Nat → Str) (loader : Option Nat) : ClassFactory :=
  if loader ∈ f.relativeClassLoaders then f
  else
    { f with
      relativeClassLoaders := f.relativeClassLoaders ++ [loader]
      libraryPath := (loader.map path).getD f.libraryPath }

def removeOwnedClassLoader (f : ClassFactory) (loader : Option Nat) : ClassFactory :=
  { f with relativeClassLoaders := f.relativeClassLoaders.erase loader }

def isOwnedBy (f : ClassFactory) (loader : Option Nat) : Bool := loader ∈ f.relativeClassLoaders

def isOwnedByAnybody (f : ClassFactory) : Bool := !f.relativeClassLoaders.isEmpty

/-- What `DestroyClassFactoryObjectsOfLibrary` leaves of a factory. -/
def destroyOfLibrary (f : ClassFactory) (libraryPath : Str) (l : Nat) : Option ClassFactory :=
  if f.libraryPath = libraryPath ∧ f.isOwnedBy (some l) then
    let f := f.removeOwnedClassLoader (some l)
    if f.isOwnedByAnybody then some f else none
  else some f

end ClassFactory

/-! ## The state -/

/-- `ClassLoader` -/
structure Loader where
  libraryPath : Str
  loadlibRefCount : Int := 0
  classobjRefCount : Int := 0

structure SharedLibrary where
  path : Str

/-- What `dlopen` does: nothing where it fails, or the classes that are registered. -/
abbrev Opening := Option (List (Str × Str))

structure World where
  openLibraries : Table Str SharedLibrary := ∅
  /-- the maps of the classes of every base, as one map by both names -/
  baseToFactoryMapMap : Map (Str ×ₗ Str) ClassFactory := OrdMap.empty _ _
  loader : Nat → Loader := fun _ => { libraryPath := [] }
  made : Nat := 0

namespace World

def path (w : World) (l : Nat) : Str := (w.loader l).libraryPath

/-! ## The calls -/

def isLibraryLoaded (w : World) (libraryPath : Str) : Bool := libraryPath ∈ w.openLibraries

def getAllClassFactoryObjectsOfLibrary (w : World) (libraryPath : Str) : List ClassFactory :=
  (w.baseToFactoryMapMap.1.map Prod.snd).filter fun f => f.libraryPath = libraryPath

/-- `RegisterClass<Derived, Base>(class_name, base_class_name)` -/
def registerClass (currActiveLoader : Option Nat) (w : World) (registered : Str × Str) : World :=
  let f : ClassFactory := { className := registered.2, baseClassName := registered.1 }
  { w with
    baseToFactoryMapMap := w.baseToFactoryMapMap.assign
      (toLex registered, f.addOwnedClassLoader w.path currActiveLoader) }

/-- `utility::LoadLibrary` -/
def utilityLoadLibrary (w : World) (libraryPath : Str) (l : Nat) (dlopen : Opening) : Bool × World :=
  if w.isLibraryLoaded libraryPath then
    (true, { w with
      baseToFactoryMapMap := w.baseToFactoryMapMap.adjust fun _ f =>
        some (if f.libraryPath = libraryPath then f.addOwnedClassLoader w.path (some l) else f) })
  else
    match dlopen with
    | none => (false, w)
    | some classes =>
        let w := classes.foldl (registerClass (some l)) w
        (true, { w with openLibraries := w.openLibraries.insert libraryPath { path := libraryPath } })

/-- `DestroyClassFactoryObjectsOfLibrary` -/
def destroyClassFactoryObjectsOfLibrary (w : World) (libraryPath : Str) (l : Nat) : World :=
  { w with
    baseToFactoryMapMap := w.baseToFactoryMapMap.adjust fun _ f => f.destroyOfLibrary libraryPath l }

/-- `utility::UnloadLibrary` -/
def utilityUnloadLibrary (w : World) (libraryPath : Str) (l : Nat) : World :=
  if w.isLibraryLoaded libraryPath then
    let w := w.destroyClassFactoryObjectsOfLibrary libraryPath l
    if (w.getAllClassFactoryObjectsOfLibrary libraryPath).isEmpty then
      { w with openLibraries := w.openLibraries.erase libraryPath }
    else w
  else w

def setLoader (w : World) (l : Nat) (loader : Loader) : World :=
  { w with loader := Function.update w.loader l loader }

def setLoadlibRefCount (w : World) (l : Nat) (count : Int) : World :=
  w.setLoader l { w.loader l with loadlibRefCount := count }

/-- `ClassLoader::LoadLibrary()` -/
def loadLibrary (w : World) (l : Nat) (dlopen : Opening) : Bool × World :=
  (w.setLoadlibRefCount l ((w.loader l).loadlibRefCount + 1)).utilityLoadLibrary (w.path l) l dlopen

/-- `ClassLoader::UnloadLibrary()` -/
def unloadLibrary (w : World) (l : Nat) : Int × World :=
  if 0 < (w.loader l).classobjRefCount then ((w.loader l).loadlibRefCount, w)
  else
    let count := (w.loader l).loadlibRefCount - 1
    if count = 0 then (0, (w.setLoadlibRefCount l 0).utilityUnloadLibrary (w.path l) l)
    else
      let count := if count < 0 then 0 else count
      (count, w.setLoadlibRefCount l count)

/-- The members of a loader that is made, before its library is loaded. -/
def initLoader (w : World) (libraryPath : Str) : World :=
  { w.setLoader w.made { libraryPath } with made := w.made + 1 }

/-- `ClassLoader(library_path)` -/
def newClassLoader (w : World) (libraryPath : Str) (dlopen : Opening) : Bool × World :=
  (w.initLoader libraryPath).loadLibrary w.made dlopen

/-- `GetValidClassNames<Base>()` of a loader -/
def getValidClassNames (w : World) (l : Nat) (base : Str) : List Str :=
  w.baseToFactoryMapMap.1.filterMap fun e =>
    if (ofLex e.1).1 = base ∧ e.2.isOwnedBy (some l) then some (ofLex e.1).2 else none

def isClassValid (w : World) (l : Nat) (base className : Str) : Bool :=
  (w.getValidClassNames l base).contains className

/-- `utility::CreateClassObj<Base>(class_name, loader)`: whether there is an object. -/
def utilityCreateClassObj (w : World) (l : Nat) (base className : Str) : Bool :=
  match w.baseToFactoryMapMap.find (toLex (base, className)) with
  | none => false
  | some f => f.isOwnedBy (some l)

/-- `CreateClassObj<Base>(class_name)` of a loader, and whether there is an object. -/
def createClassObj (w : World) (l : Nat) (base className : Str) (dlopen : Opening) : Bool × World :=
  let w := if w.isLibraryLoaded (w.path l) then w else (w.loadLibrary l dlopen).2
  if w.utilityCreateClassObj l base className then
    let loader := w.loader l
    (true, w.setLoader l { loader with classobjRefCount := loader.classobjRefCount + 1 })
  else (false, w)

/-- `OnClassObjDeleter`, while there is an object. -/
def deleteClassObj (w : World) (l : Nat) : World :=
  let loader := w.loader l
  if 0 < loader.classobjRefCount then
    w.setLoader l { loader with classobjRefCount := loader.classobjRefCount - 1 }
  else w

/-! ## What the calls leave alone -/

variable {w : World} {l : Nat} {libraryPath : Str}

theorem isLibraryLoaded_iff : w.isLibraryLoaded libraryPath = true ↔ libraryPath ∈ w.openLibraries :=
  decide_eq_true_iff

/-- The classes that a library registers come over what is in the map. -/
theorem foldl_registerClass (classes : List (Str × Str)) (w : World) :
    ∃ m, classes.foldl (registerClass (some l)) w = { w with baseToFactoryMapMap := m } ∧
      ∀ k f, m.find k = some f → w.baseToFactoryMapMap.find k = some f ∨ ∃ className baseClassName,
        f = ClassFactory.addOwnedClassLoader { className, baseClassName } w.path (some l) := by
  induction classes generalizing w with
  | nil => exact ⟨w.baseToFactoryMapMap, rfl, fun k f hf => .inl hf⟩
  | cons registered classes ih =>
      obtain ⟨m, hm, hfind⟩ := ih (registerClass (some l) w registered)
      refine ⟨m, hm, fun k f hf => ?_⟩
      rcases hfind k f hf with hold | hnew
      · have hold := (Map.find_assign _).symm.trans hold
        split at hold
        · exact .inr ⟨_, _, (Option.some.inj hold).symm⟩
        · exact .inl hold
      · exact .inr hnew

/-- A library is open afterwards if it was, or if `dlopen` opens it. -/
theorem utilityLoadLibrary_frame (w : World) (libraryPath : Str) (l : Nat) (dlopen : Opening) :
    (w.utilityLoadLibrary libraryPath l dlopen).2.loader = w.loader ∧
      (w.utilityLoadLibrary libraryPath l dlopen).2.made = w.made ∧
      ∀ other, other ∈ (w.utilityLoadLibrary libraryPath l dlopen).2.openLibraries ↔
        other ∈ w.openLibraries ∨ other = libraryPath ∧ dlopen ≠ none := by
  unfold utilityLoadLibrary
  split
  case isTrue hloaded =>
    refine ⟨rfl, rfl, fun other => (or_iff_left_of_imp ?_).symm⟩
    rintro ⟨rfl, -⟩
    exact isLibraryLoaded_iff.mp hloaded
  case isFalse =>
    cases dlopen with
    | none => exact ⟨rfl, rfl, fun other => (or_iff_left fun h => h.2 rfl).symm⟩
    | some classes =>
        obtain ⟨m, hm, -⟩ := foldl_registerClass (l := l) classes w
        dsimp only
        rw [hm]
        refine ⟨rfl, rfl, fun other => ?_⟩
        show other ∈ w.openLibraries.insert libraryPath _ ↔ _
        rw [AList.mem_insert, or_comm]
        exact or_congr_right (and_iff_left (Option.some_ne_none classes)).symm

theorem newClassLoader_frame (w : World) (libraryPath : Str) (dlopen : Opening) :
    (w.newClassLoader libraryPath dlopen).2.made = w.made + 1 ∧
      (∀ l, (w.newClassLoader libraryPath dlopen).2.loader l =
        if l = w.made then { libraryPath, loadlibRefCount := 1 } else w.loader l) ∧
      ∀ other, other ∈ (w.newClassLoader libraryPath dlopen).2.openLibraries ↔
        other ∈ w.openLibraries ∨ other = libraryPath ∧ dlopen ≠ none := by
  have hself : (w.initLoader libraryPath).loader w.made = { libraryPath } := Function.update_self ..
  have hpath : (w.initLoader libraryPath).path w.made = libraryPath := by rw [path, hself]
  rw [newClassLoader, loadLibrary, hpath, hself]
  obtain ⟨hloader, hmade, hopen⟩ := utilityLoadLibrary_frame
    ((w.initLoader libraryPath).setLoadlibRefCount w.made (0 + 1)) libraryPath w.made dlopen
  refine ⟨hmade, fun l => ?_, hopen⟩
  rw [hloader, setLoadlibRefCount, hself]
  show Function.update (Function.update w.loader w.made _) w.made _ l = _
  rw [Function.update_idem, Function.update_apply]
  rfl

theorem utilityUnloadLibrary_frame (w : World) (libraryPath : Str) (l : Nat) :
    (w.utilityUnloadLibrary libraryPath l).loader = w.loader ∧
      (w.utilityUnloadLibrary libraryPath l).made = w.made ∧
      ∀ other, other ≠ libraryPath →
        (other ∈ (w.utilityUnloadLibrary libraryPath l).openLibraries ↔ other ∈ w.openLibraries) := by
  unfold utilityUnloadLibrary
  split
  · dsimp only
    split
    · exact ⟨rfl, rfl, fun other hne => AList.mem_erase.trans (and_iff_right hne)⟩
    · exact ⟨rfl, rfl, fun other _ => Iff.rfl⟩
  · exact ⟨rfl, rfl, fun other _ => Iff.rfl⟩

theorem unloadLibrary_last (hobj : (w.loader l).classobjRefCount ≤ 0)
    (hcount : (w.loader l).loadlibRefCount = 1) :
    w.unloadLibrary l = (0, (w.setLoadlibRefCount l 0).utilityUnloadLibrary (w.path l) l) := by
  rw [unloadLibrary, if_neg (Int.not_lt.mpr hobj), hcount]
  rfl

theorem unloadLibrary_none (hobj : (w.loader l).classobjRefCount ≤ 0)
    (hcount : (w.loader l).loadlibRefCount = 0) :
    w.unloadLibrary l = (0, w.setLoadlibRefCount l 0) := by
  rw [unloadLibrary, if_neg (Int.not_lt.mpr hobj), hcount]
  rfl

end World

end ClassLoader
end Cmw
