import Cmw.ClassLoader.ClassLoader

/-!
# The class loader manager

class_loader/class_loader_manager.cpp: the loaders by the paths of their libraries.  An entry
may be null, since a look-up makes one where there is none and an unload leaves one.  A call
that uses a null loader has no result.
-/

namespace Cmw
namespace ClassLoader

open Config
open Library
open Library.Ordered

structure Manager where
  world : World := {}
  libpathLoaderMap : Map Str (Option Nat) := OrdMap.empty _ _

namespace World

/-- The loop of `CreateClassObj(class_name)` over the loaders. -/
def createClassObjFrom (w : World) (base className : Str) (dlopen : Opening) :
    List (Option Nat) → Option (Bool × World)
  | [] => some (false, w)
  | none :: _ => none
  | some l :: loaders =>
      if w.isClassValid l base className then some (w.createClassObj l base className dlopen)
      else createClassObjFrom w base className dlopen loaders

/-- The loop of `GetValidClassNames` over the loaders. -/
def validClassNamesFrom (w : World) (base : Str) : List (Option Nat) → Option (List Str)
  | [] => some []
  | none :: _ => none
  | some l :: loaders => (validClassNamesFrom w base loaders).map (w.getValidClassNames l base ++ ·)

end World

namespace Manager

/-! ## The calls -/

/-- `libpath_loader_map_[library_path]` -/
def getClassLoaderByLibPath (m : Manager) (libraryPath : Str) : Option Nat × Manager :=
  match m.libpathLoaderMap.find libraryPath with
  | some loader => (loader, m)
  | none => (none, { m with libpathLoaderMap := m.libpathLoaderMap.assign (libraryPath, none) })

def getAllValidClassLoaders (m : Manager) : List (Option Nat) := m.libpathLoaderMap.1.map Prod.snd

def getAllValidLibPath (m : Manager) : List Str :=
  (m.libpathLoaderMap.1.filter fun e => e.2.isSome).map Prod.fst

def isLibraryValid (m : Manager) (libraryName : Str) : Bool :=
  m.getAllValidLibPath.contains libraryName

def loadLibrary (m : Manager) (libraryPath : Str) (dlopen : Opening) : Bool × Manager :=
  let m :=
    if m.isLibraryValid libraryPath then m
    else
      { world := (m.world.newClassLoader libraryPath dlopen).2
        libpathLoaderMap := m.libpathLoaderMap.assign (libraryPath, some m.world.made) }
  (m.isLibraryValid libraryPath, m)

/-- `UnloadLibrary(library_path)`: a loader that is deleted unloads once more. -/
def unloadLibrary (m : Manager) (libraryPath : Str) : Option (Int × Manager) :=
  if m.isLibraryValid libraryPath then
    match m.getClassLoaderByLibPath libraryPath with
    | (none, _) => none
    | (some l, m) =>
        let (remain, world) := m.world.unloadLibrary l
        if remain = 0 then
          some (remain,
            { world := (world.unloadLibrary l).2
              libpathLoaderMap := m.libpathLoaderMap.assign (libraryPath, none) })
        else some (remain, { m with world })
  else some (0, m)

def unloadAllLibraries (m : Manager) : Option Manager :=
  m.getAllValidLibPath.foldlM (fun m lib => (m.unloadLibrary lib).map Prod.snd) m

/-- `CreateClassObj(class_name)` -/
def createClassObj (m : Manager) (base className : Str) (dlopen : Opening) :
    Option (Bool × Manager) :=
  (m.world.createClassObjFrom base className dlopen m.getAllValidClassLoaders).map
    fun answer => (answer.1, { m with world := answer.2 })

/-- `CreateClassObj(class_name, library_path)` -/
def createClassObjOf (m : Manager) (base className libraryPath : Str) (dlopen : Opening) :
    Bool × Manager :=
  match m.getClassLoaderByLibPath libraryPath with
  | (some l, m) =>
      let (made, world) := m.world.createClassObj l base className dlopen
      (made, { m with world })
  | (none, m) => (false, m)

def getValidClassNames (m : Manager) (base : Str) : Option (List Str) :=
  m.world.validClassNamesFrom base m.getAllValidClassLoaders

def isClassValid (m : Manager) (base className : Str) : Option Bool :=
  (m.getValidClassNames base).map fun classes => classes.contains className

inductive Call
  | loadLibrary (libraryPath : Str) (dlopen : Opening)
  | unloadAllLibraries
  | isLibraryValid (libraryName : Str)
  | createClassObj (base className : Str) (dlopen : Opening)
  | createClassObjOf (base className libraryPath : Str) (dlopen : Opening)
  | isClassValid (base className : Str)
  | getValidClassNames (base : Str)
  /-- the last pointer to an object goes away -/
  | deleteClassObj (l : Nat)

/-- The state after a call, which is the one before it where the call has no result. -/
def step (m : Manager) : Call → Manager
  | .loadLibrary libraryPath dlopen => (m.loadLibrary libraryPath dlopen).2
  | .unloadAllLibraries => m.unloadAllLibraries.getD m
  | .isLibraryValid _ => m
  | .createClassObj base className dlopen =>
      ((m.createClassObj base className dlopen).map Prod.snd).getD m
  | .createClassObjOf base className libraryPath dlopen =>
      (m.createClassObjOf base className libraryPath dlopen).2
  | .isClassValid _ _ => m
  | .getValidClassNames _ => m
  | .deleteClassObj l => { m with world := m.world.deleteClassObj l }

/-- No null loader is used, and a library that is reported as loaded or valid is open. -/
def Sound (m : Manager) : Call → Prop
  | .loadLibrary libraryPath dlopen =>
      (m.loadLibrary libraryPath dlopen).1 = true →
        libraryPath ∈ (m.loadLibrary libraryPath dlopen).2.world.openLibraries
  | .unloadAllLibraries => m.unloadAllLibraries ≠ none
  | .isLibraryValid libraryName =>
      m.isLibraryValid libraryName = true → libraryName ∈ m.world.openLibraries
  | .createClassObj base className dlopen => m.createClassObj base className dlopen ≠ none
  | .createClassObjOf _ _ _ _ => True
  | .isClassValid base className => m.isClassValid base className ≠ none
  | .getValidClassNames base => m.getValidClassNames base ≠ none
  | .deleteClassObj _ => True

/-- The loaders before the first one that has the class. -/
def before (m : Manager) (base className : Str) : List (Option Nat) :=
  m.getAllValidClassLoaders.takeWhile fun loader =>
    !(loader.any fun l => m.world.isClassValid l base className)

/-- A library that has no loader can be opened, and there is no null entry among the loaders
that a call goes through. -/
def Careful (m : Manager) : Call → Prop
  | .loadLibrary libraryPath dlopen =>
      m.isLibraryValid libraryPath = false → m.world.isLibraryLoaded libraryPath = false →
        dlopen ≠ none
  | .createClassObj base className _ => none ∉ m.before base className
  | .isClassValid _ _ => none ∉ m.getAllValidClassLoaders
  | .getValidClassNames _ => none ∉ m.getAllValidClassLoaders
  | _ => True

/-! ## Null entries -/

theorem isLibraryValid_iff {m : Manager} {libraryName : Str} :
    m.isLibraryValid libraryName = true ↔ ∃ l, m.libpathLoaderMap.find libraryName = some (some l) := by
  rw [isLibraryValid, List.contains_iff_mem, getAllValidLibPath, List.mem_map]
  constructor
  · intro h
    obtain ⟨⟨libraryName, loader⟩, he, rfl⟩ := h
    obtain ⟨hmem, hsome⟩ := List.mem_filter.mp he
    obtain ⟨l, rfl⟩ := Option.isSome_iff_exists.mp hsome
    exact ⟨l, Map.mem_iff_find.mp hmem⟩
  · intro h
    obtain ⟨l, hl⟩ := h
    exact ⟨_, List.mem_filter.mpr ⟨Map.mem_iff_find.mpr hl, rfl⟩, rfl⟩

theorem getClassLoaderByLibPath_of_find {m : Manager} {libraryPath : Str} {loader : Option Nat}
    (h : m.libpathLoaderMap.find libraryPath = some loader) :
    m.getClassLoaderByLibPath libraryPath = (loader, m) := by
  rw [getClassLoaderByLibPath, h]

/-- A look-up leaves the loaders as they are. -/
theorem find_getClassLoaderByLibPath (m : Manager) (libraryPath : Str) :
    (m.getClassLoaderByLibPath libraryPath).2.world = m.world ∧ ∀ libraryPath' l,
      (m.getClassLoaderByLibPath libraryPath).2.libpathLoaderMap.find libraryPath' = some (some l) ↔
        m.libpathLoaderMap.find libraryPath' = some (some l) := by
  rw [getClassLoaderByLibPath]
  split
  case h_1 => exact ⟨rfl, fun _ _ => Iff.rfl⟩
  case h_2 hnone =>
    refine ⟨rfl, fun libraryPath' l => ?_⟩
    dsimp only
    rw [Map.find_assign]
    split
    case isTrue heq =>
      rw [heq, hnone]
      exact iff_of_false (fun h => Option.some_ne_none l (Option.some.inj h).symm)
        (Option.some_ne_none _).symm
    case isFalse => exact Iff.rfl

theorem validClassNamesFrom_eq_none (w : World) (base : Str) (loaders : List (Option Nat)) :
    w.validClassNamesFrom base loaders = none ↔ none ∈ loaders := by
  induction loaders with
  | nil => exact iff_of_false (Option.some_ne_none _) List.not_mem_nil
  | cons loader loaders ih =>
      cases loader with
      | none => exact iff_of_true rfl List.mem_cons_self
      | some l =>
          rw [World.validClassNamesFrom, Option.map_eq_none_iff, ih, List.mem_cons]
          exact (or_iff_right (Option.some_ne_none l).symm).symm

theorem createClassObjFrom_eq_none (w : World) (base className : Str) (dlopen : Opening)
    (loaders : List (Option Nat)) :
    w.createClassObjFrom base className dlopen loaders = none ↔
      none ∈ loaders.takeWhile fun loader => !(loader.any fun l => w.isClassValid l base className) := by
  induction loaders with
  | nil => exact iff_of_false (Option.some_ne_none _) List.not_mem_nil
  | cons loader loaders ih =>
      cases loader with
      | none => exact iff_of_true rfl List.mem_cons_self
      | some l =>
          rw [World.createClassObjFrom, List.takeWhile_cons, Option.any_some]
          cases w.isClassValid l base className with
          | true => exact iff_of_false (Option.some_ne_none _) List.not_mem_nil
          | false =>
              rw [if_neg Bool.false_ne_true, ih]
              exact (List.mem_cons.trans (or_iff_right (Option.some_ne_none l).symm)).symm

/-! ## What the calls keep -/

/-- The library of a loader is open, and the loader has loaded it once. -/
structure Kept (w : World) (libraryPath : Str) (l : Nat) : Prop where
  opened : libraryPath ∈ w.openLibraries
  made : l < w.made
  path : (w.loader l).libraryPath = libraryPath
  count : (w.loader l).loadlibRefCount = 1

def Inv (m : Manager) : Prop :=
  ∀ libraryPath l, m.libpathLoaderMap.find libraryPath = some (some l) → Kept m.world libraryPath l

variable {m : Manager}

/-- Only the number of objects of a loader changes. -/
theorem inv_setLoader (h : m.Inv) {l : Nat} {loader : Loader}
    (hpath : loader.libraryPath = (m.world.loader l).libraryPath)
    (hcount : loader.loadlibRefCount = (m.world.loader l).loadlibRefCount) :
    Inv { m with world := m.world.setLoader l loader } := by
  have hsame : ∀ l', ((m.world.setLoader l loader).loader l').libraryPath =
        (m.world.loader l').libraryPath ∧
      ((m.world.setLoader l loader).loader l').loadlibRefCount =
        (m.world.loader l').loadlibRefCount := by
    intro l'
    by_cases hl : l' = l
    · have hself : (m.world.setLoader l loader).loader l = loader := Function.update_self ..
      rw [hl, hself]
      exact ⟨hpath, hcount⟩
    · have hother : (m.world.setLoader l loader).loader l' = m.world.loader l' :=
        Function.update_of_ne hl _ _
      rw [hother]
      exact ⟨rfl, rfl⟩
  intro libraryPath l' hl'
  have hkept := h libraryPath l' hl'
  exact ⟨hkept.opened, hkept.made, (hsame l').1.trans hkept.path, (hsame l').2.trans hkept.count⟩

theorem inv_createClassObj (h : m.Inv) {libraryPath : Str} {l : Nat}
    (hl : m.libpathLoaderMap.find libraryPath = some (some l)) (base className : Str)
    (dlopen : Opening) : Inv { m with world := (m.world.createClassObj l base className dlopen).2 } := by
  have hkept := h libraryPath l hl
  have hpath : m.world.path l = libraryPath := hkept.path
  have hloaded : m.world.isLibraryLoaded (m.world.path l) = true := by
    rw [hpath]
    exact World.isLibraryLoaded_iff.mpr hkept.opened
  rw [World.createClassObj, if_pos hloaded]
  dsimp only
  split
  · exact inv_setLoader h rfl rfl
  · exact h

/-- A library that has no loader gets one, and it is open if it could be opened. -/
theorem loadLibrary_keeps (h : m.Inv) (libraryPath : Str) (dlopen : Opening) :
    (m.loadLibrary libraryPath dlopen).1 = true ∧
      (libraryPath ∈ (m.loadLibrary libraryPath dlopen).2.world.openLibraries ↔
        m.Careful (.loadLibrary libraryPath dlopen)) ∧
      (m.Careful (.loadLibrary libraryPath dlopen) → (m.loadLibrary libraryPath dlopen).2.Inv) := by
  unfold loadLibrary
  by_cases hvalid : m.isLibraryValid libraryPath = true
  · obtain ⟨l, hl⟩ := isLibraryValid_iff.mp hvalid
    rw [if_pos hvalid]
    refine ⟨hvalid, iff_of_true (h libraryPath l hl).opened fun hnot => ?_, fun _ => h⟩
    exact absurd (hvalid.symm.trans hnot) Bool.false_ne_true.symm
  · rw [if_neg hvalid]
    dsimp only
    obtain ⟨hmade, hloader, hopen⟩ := World.newClassLoader_frame m.world libraryPath dlopen
    have hcareful : libraryPath ∈ (m.world.newClassLoader libraryPath dlopen).2.openLibraries ↔
        m.Careful (.loadLibrary libraryPath dlopen) := by
      rw [hopen, and_iff_right rfl]
      constructor
      · intro hor _ hnot hfail
        refine hor.elim (fun hold => ?_) fun hopens => hopens hfail
        exact Bool.false_ne_true (hnot.symm.trans (World.isLibraryLoaded_iff.mpr hold))
      · intro hcareful
        by_cases hold : libraryPath ∈ m.world.openLibraries
        · exact .inl hold
        · exact .inr (hcareful (Bool.eq_false_iff.mpr hvalid)
            (Bool.eq_false_iff.mpr (mt World.isLibraryLoaded_iff.mp hold)))
    refine ⟨?_, hcareful, fun hc libraryPath' l' hl' => ?_⟩
    · rw [isLibraryValid_iff]
      exact ⟨m.world.made, (Map.find_assign _).trans (if_pos rfl)⟩
    · have hl' := (Map.find_assign _).symm.trans hl'
      split at hl'
      case isTrue heq =>
        obtain rfl := Option.some.inj (Option.some.inj hl')
        have hnew := (hloader m.world.made).trans (if_pos rfl)
        refine ⟨heq ▸ hcareful.mpr hc, hmade ▸ Nat.lt_succ_self _, ?_, ?_⟩
        · rw [hnew, heq]
        · rw [hnew]
      case isFalse =>
        have hkept := h libraryPath' l' hl'
        have hold := (hloader l').trans (if_neg (Nat.ne_of_lt hkept.made))
        refine ⟨(hopen _).mpr (.inl hkept.opened), ?_, ?_, ?_⟩
        · rw [hmade]
          exact Nat.lt_succ_of_lt hkept.made
        · rw [hold]
          exact hkept.path
        · rw [hold]
          exact hkept.count

/-- A library that is unloaded loses its loader, or the loader stays with it. -/
theorem unloadLibrary_keeps (h : m.Inv) (libraryPath : Str) :
    ∃ answer, m.unloadLibrary libraryPath = some answer ∧ answer.2.Inv := by
  unfold unloadLibrary
  split
  case isTrue hvalid =>
    obtain ⟨l, hl⟩ := isLibraryValid_iff.mp hvalid
    have hkept := h libraryPath l hl
    have hpath : m.world.path l = libraryPath := hkept.path
    rw [getClassLoaderByLibPath_of_find hl]
    dsimp only
    by_cases hobj : 0 < (m.world.loader l).classobjRefCount
    · rw [World.unloadLibrary, if_pos hobj]
      dsimp only
      rw [if_neg (by rw [hkept.count]; decide)]
      exact ⟨_, rfl, h⟩
    · have hobj := Int.not_lt.mp hobj
      obtain ⟨w, hw⟩ : ∃ w, w =
          (m.world.setLoadlibRefCount l 0).utilityUnloadLibrary (m.world.path l) l := ⟨_, rfl⟩
      obtain ⟨hloader, hmade, hopen⟩ := World.utilityUnloadLibrary_frame
        (m.world.setLoadlibRefCount l 0) (m.world.path l) l
      rw [← hw] at hloader hmade hopen
      have hself : w.loader l = { m.world.loader l with loadlibRefCount := 0 } :=
        (congrFun hloader l).trans (Function.update_self ..)
      have hidle : w.unloadLibrary l = (0, w.setLoadlibRefCount l 0) :=
        World.unloadLibrary_none (hself ▸ hobj) (hself ▸ rfl)
      rw [World.unloadLibrary_last hobj hkept.count, ← hw]
      dsimp only
      rw [if_pos rfl, hidle]
      refine ⟨_, rfl, fun libraryPath' l' hl' => ?_⟩
      have hl' := (Map.find_assign _).symm.trans hl'
      split at hl'
      case isTrue => exact absurd (Option.some.inj hl').symm (Option.some_ne_none l')
      case isFalse hne =>
        have hkept' := h libraryPath' l' hl'
        have hother : l' ≠ l := by
          rintro rfl
          exact hne (hkept'.path.symm.trans hkept.path)
        have hsame : (w.setLoadlibRefCount l 0).loader l' = m.world.loader l' :=
          (Function.update_of_ne hother _ _).trans
            ((congrFun hloader l').trans (Function.update_of_ne hother _ _))
        refine ⟨(hopen _ (hpath ▸ hne)).mpr hkept'.opened, ?_, ?_, ?_⟩
        · show l' < w.made
          rw [hmade]
          exact hkept'.made
        · rw [hsame]
          exact hkept'.path
        · rw [hsame]
          exact hkept'.count
  case isFalse => exact ⟨_, rfl, h⟩

theorem unloadAllLibraries_keeps (h : m.Inv) :
    ∃ m', m.unloadAllLibraries = some m' ∧ m'.Inv := by
  have hfold : ∀ (libs : List Str) (m : Manager), m.Inv → ∃ m',
      libs.foldlM (fun m lib => (m.unloadLibrary lib).map Prod.snd) m = some m' ∧ m'.Inv := by
    intro libs
    induction libs with
    | nil => exact fun m hm => ⟨m, rfl, hm⟩
    | cons lib libs ih =>
        intro m hm
        obtain ⟨answer, hanswer, hinv⟩ := unloadLibrary_keeps hm lib
        rw [List.foldlM_cons, hanswer]
        exact ih answer.2 hinv
  exact hfold _ m h

/-- What `CreateClassObj(class_name)` does, it does with a loader of the map. -/
theorem createClassObjFrom_keeps (h : m.Inv) (base className : Str) (dlopen : Opening)
    {loaders : List (Option Nat)}
    (hloaders : ∀ l, some l ∈ loaders → ∃ libraryPath,
      m.libpathLoaderMap.find libraryPath = some (some l)) {answer : Bool × World}
    (hanswer : m.world.createClassObjFrom base className dlopen loaders = some answer) :
    Inv { m with world := answer.2 } := by
  induction loaders with
  | nil =>
      obtain rfl := Option.some.inj hanswer
      exact h
  | cons loader loaders ih =>
      cases loader with
      | none => cases hanswer
      | some l =>
          rw [World.createClassObjFrom] at hanswer
          split at hanswer
          case isTrue =>
            obtain rfl := Option.some.inj hanswer
            obtain ⟨libraryPath, hl⟩ := hloaders l List.mem_cons_self
            exact inv_createClassObj h hl base className dlopen
          case isFalse =>
            exact ih (fun l hl => hloaders l (List.mem_cons_of_mem _ hl)) hanswer

theorem inv_step (h : m.Inv) (call : Call) (hcareful : m.Careful call) : (m.step call).Inv := by
  cases call with
  | loadLibrary libraryPath dlopen => exact (loadLibrary_keeps h libraryPath dlopen).2.2 hcareful
  | unloadAllLibraries =>
      obtain ⟨m', hm', hinv⟩ := unloadAllLibraries_keeps h
      rw [step, hm']
      exact hinv
  | isLibraryValid libraryName => exact h
  | createClassObj base className dlopen =>
      rw [step, createClassObj]
      cases hanswer : m.world.createClassObjFrom base className dlopen m.getAllValidClassLoaders with
      | none => exact h
      | some answer =>
          refine createClassObjFrom_keeps h base className dlopen (fun l hl => ?_) hanswer
          obtain ⟨e, he, heq⟩ := List.mem_map.mp hl
          exact ⟨e.1, Map.mem_iff_find.mp (heq ▸ he)⟩
  | createClassObjOf base className libraryPath dlopen =>
      obtain ⟨hworld, hfind⟩ := find_getClassLoaderByLibPath m libraryPath
      rw [step, createClassObjOf]
      cases hloader : m.libpathLoaderMap.find libraryPath with
      | none =>
          rw [getClassLoaderByLibPath, hloader] at hworld hfind ⊢
          exact fun libraryPath' l hl => h libraryPath' l ((hfind libraryPath' l).mp hl)
      | some loader =>
          rw [getClassLoaderByLibPath_of_find hloader]
          cases loader with
          | none => exact h
          | some l => exact inv_createClassObj h hloader base className dlopen
  | isClassValid base className => exact h
  | getValidClassNames base => exact h
  | deleteClassObj l =>
      rw [step, World.deleteClassObj]
      split
      · exact inv_setLoader h rfl rfl
      · exact h

theorem sound_iff_careful_step (h : m.Inv) (call : Call) : m.Sound call ↔ m.Careful call := by
  have hnames : ∀ base, m.getValidClassNames base ≠ none ↔ none ∉ m.getAllValidClassLoaders :=
    fun base => not_congr (validClassNamesFrom_eq_none m.world base _)
  cases call with
  | loadLibrary libraryPath dlopen =>
      obtain ⟨htrue, hopen, -⟩ := loadLibrary_keeps h libraryPath dlopen
      exact (forall_prop_of_true htrue).trans hopen
  | unloadAllLibraries =>
      obtain ⟨m', hm', -⟩ := unloadAllLibraries_keeps h
      rw [Sound, hm']
      exact iff_of_true (Option.some_ne_none m') trivial
  | isLibraryValid libraryName =>
      refine iff_of_true (fun hvalid => ?_) trivial
      obtain ⟨l, hl⟩ := isLibraryValid_iff.mp hvalid
      exact (h libraryName l hl).opened
  | createClassObj base className dlopen =>
      rw [Sound, createClassObj, ne_eq, Option.map_eq_none_iff, createClassObjFrom_eq_none]
      exact Iff.rfl
  | createClassObjOf => exact Iff.rfl
  | isClassValid base className =>
      rw [Sound, isClassValid, ne_eq, Option.map_eq_none_iff]
      exact hnames base
  | getValidClassNames base => exact hnames base
  | deleteClassObj => exact Iff.rfl

/-- Whatever is open before there is a manager, its calls use no null loader and report no
library that is not open, exactly if they meet `Careful`. -/
theorem sound_iff_careful (w : World) (calls : List Call) :
    Run.Along step Sound { world := w } calls ↔ Run.Along step Careful { world := w } calls := by
  refine Run.along_iff_along (fun m call h => sound_iff_careful_step h call)
    (fun m call h hcareful => inv_step h call hcareful) (I := Inv) fun libraryPath l hl => ?_
  exact absurd hl (Option.some_ne_none _).symm

/-- A library that cannot be opened is reported as loaded, and the class of a path that was only
looked up is asked of a null loader. -/
theorem careless :
    ¬ Run.Along step Sound {} [.loadLibrary [0x61] none] ∧
      ¬ Run.Along step Sound {} [.createClassObjOf [0x42] [0x43] [0x61] none,
        .isClassValid [0x42] [0x43]] := by
  constructor
  · intro h
    exact absurd (h.1 rfl) (by decide)
  · intro h
    exact h.2.1 rfl

end Manager

end ClassLoader
end Cmw
