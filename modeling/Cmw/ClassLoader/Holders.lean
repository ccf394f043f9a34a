import Cmw.ClassLoader.ClassLoader

/-!
# How long a library is open

Who holds a library is kept beside the state: a loader that has loaded it, until its count is
back at 0.  The code has the owners of the factories instead, and closes a library without
factories whoever holds it.
-/

namespace Cmw
namespace ClassLoader

open Config
open Library
open Library.Ordered

structure Watch where
  world : World := {}
  holds : Nat → Bool := fun _ => false

inductive Call
  | newClassLoader (libraryPath : Str) (dlopen : Opening)
  | loadLibrary (l : Nat) (dlopen : Opening)
  | unloadLibrary (l : Nat)
  | createClassObj (l : Nat) (base className : Str) (dlopen : Opening)
  | deleteClassObj (l : Nat)

namespace Watch

/-- A loader that loads its library holds it. -/
def load (t : Watch) (l : Nat) (dlopen : Opening) : Watch :=
  let answer := t.world.loadLibrary l dlopen
  { world := answer.2, holds := if answer.1 then Function.update t.holds l true else t.holds }

/-- A loader whose count is 0 has let go. -/
def unload (t : Watch) (l : Nat) : Watch :=
  let answer := t.world.unloadLibrary l
  { world := answer.2, holds := if answer.1 = 0 then Function.update t.holds l false else t.holds }

/-- One call, on a loader that has been made. -/
def step (t : Watch) : Call → Watch
  | .newClassLoader libraryPath dlopen =>
      { t with world := t.world.initLoader libraryPath }.load t.world.made dlopen
  | .loadLibrary l dlopen => if l < t.world.made then t.load l dlopen else t
  | .unloadLibrary l => if l < t.world.made then t.unload l else t
  | .createClassObj l base className dlopen =>
      if l < t.world.made then
        let t' := if t.world.isLibraryLoaded (t.world.path l) then t else t.load l dlopen
        { t' with world := (t.world.createClassObj l base className dlopen).2 }
      else t
  | .deleteClassObj l => if l < t.world.made then { t with world := t.world.deleteClassObj l } else t

def Holder (t : Watch) (libraryPath : Str) (l : Nat) : Prop :=
  t.holds l = true ∧ t.world.path l = libraryPath

/-- The libraries that are open are those that some loader holds. -/
def Right (t : Watch) : Prop :=
  ∀ libraryPath, libraryPath ∈ t.world.openLibraries ↔ ∃ l, t.Holder libraryPath l

/-- The count of the loader falls to 0. -/
def LetsGo (t : Watch) (l : Nat) : Prop :=
  l < t.world.made ∧ (t.world.loader l).classobjRefCount ≤ 0 ∧ (t.world.loader l).loadlibRefCount = 1

/-- Where a loader lets go of a library that another one holds, a factory of the library is in
the map. -/
def Backed (t : Watch) : Call → Prop
  | .unloadLibrary l =>
      t.LetsGo l → (∃ l', l' ≠ l ∧ t.Holder (t.world.path l) l') →
        t.world.getAllClassFactoryObjectsOfLibrary (t.world.path l) ≠ []
  | _ => True

end Watch

/-! ## The owners of the factories -/

/-- The owners of a factory are the loaders that hold its library, and there is one. -/
structure Owned (holder : Str → Nat → Prop) (f : ClassFactory) : Prop where
  someone : f.relativeClassLoaders ≠ []
  once : f.relativeClassLoaders.Nodup
  owners : ∀ o, o ∈ f.relativeClassLoaders ↔ ∃ l, o = some l ∧ holder f.libraryPath l

section Owned

variable {holder holder' : Str → Nat → Prop} {f : ClassFactory} {path : Nat → Str} {l : Nat}

theorem Owned.mem (h : Owned holder f) : some l ∈ f.relativeClassLoaders ↔ holder f.libraryPath l := by
  rw [h.owners]
  constructor
  · intro hl
    obtain ⟨l', heq, hl'⟩ := hl
    rwa [Option.some.inj heq]
  · exact fun hl => ⟨l, rfl, hl⟩

theorem Owned.congr (h : Owned holder f)
    (hsame : ∀ l, holder' f.libraryPath l ↔ holder f.libraryPath l) : Owned holder' f := by
  refine ⟨h.someone, h.once, fun o => ?_⟩
  rw [h.owners]
  exact exists_congr fun l => and_congr_right fun _ => (hsame l).symm

theorem Owned.someHolder (h : Owned holder f) : ∃ l, holder f.libraryPath l := by
  obtain ⟨o, ho⟩ := List.exists_mem_of_ne_nil _ h.someone
  obtain ⟨l, -, hl⟩ := (h.owners o).mp ho
  exact ⟨l, hl⟩

theorem addOwnedClassLoader_libraryPath (hpath : path l = f.libraryPath) :
    (f.addOwnedClassLoader path (some l)).libraryPath = f.libraryPath := by
  rw [ClassFactory.addOwnedClassLoader]
  split
  · rfl
  · exact hpath

/-- A loader is added where it is not an owner yet. -/
theorem Owned.add (h : Owned holder f) (hpath : path l = f.libraryPath)
    (hnew : ∀ l', holder' f.libraryPath l' ↔ holder f.libraryPath l' ∨ l' = l) :
    Owned holder' (f.addOwnedClassLoader path (some l)) := by
  have hsame := addOwnedClassLoader_libraryPath hpath
  rw [ClassFactory.addOwnedClassLoader] at hsame ⊢
  split
  case isTrue hmem =>
    refine h.congr fun l' => (hnew l').trans (or_iff_left_of_imp ?_)
    rintro rfl
    exact h.mem.mp hmem
  case isFalse hmem =>
    rw [if_neg hmem] at hsame
    refine ⟨List.append_ne_nil_of_right_ne_nil _ (List.cons_ne_nil _ _), ?_, fun o => ?_⟩
    · exact List.nodup_append.mpr ⟨h.once, List.nodup_singleton _, fun o ho o' ho' heq =>
        hmem (List.mem_singleton.mp ho' ▸ heq ▸ ho)⟩
    · rw [hsame, List.mem_append, List.mem_singleton, h.owners]
      constructor
      · intro ho
        rcases ho with ⟨l', rfl, hl'⟩ | rfl
        · exact ⟨l', rfl, (hnew l').mpr (.inl hl')⟩
        · exact ⟨l, rfl, (hnew l).mpr (.inr rfl)⟩
      · intro ho
        obtain ⟨l', rfl, hl'⟩ := ho
        exact ((hnew l').mp hl').imp (fun hold => ⟨l', rfl, hold⟩) (congrArg some)

/-- What a library registers belongs to the loader that opens it. -/
theorem owned_registered {className baseClassName : Str}
    (honly : ∀ l', holder (path l) l' ↔ l' = l) :
    Owned holder (ClassFactory.addOwnedClassLoader { className, baseClassName } path (some l)) := by
  refine ⟨List.cons_ne_nil _ _, List.nodup_singleton _, fun o => ?_⟩
  refine List.mem_singleton.trans ⟨fun ho => ⟨l, ho, (honly l).mpr rfl⟩, fun ho => ?_⟩
  obtain ⟨l', rfl, hl'⟩ := ho
  exact congrArg some ((honly l').mp hl')

/-- Taking a loader out leaves the other holders, if there is one. -/
theorem Owned.remove (h : Owned holder f) (l : Nat) :
    (∃ l', holder f.libraryPath l' ∧ l' ≠ l) ∧
        Owned (fun libraryPath l' => holder libraryPath l' ∧ l' ≠ l)
          (f.removeOwnedClassLoader (some l)) ∨
      (¬ ∃ l', holder f.libraryPath l' ∧ l' ≠ l) ∧
        (f.removeOwnedClassLoader (some l)).relativeClassLoaders = [] := by
  have howners : ∀ o, o ∈ f.relativeClassLoaders.erase (some l) ↔
      ∃ l', o = some l' ∧ holder f.libraryPath l' ∧ l' ≠ l := by
    intro o
    rw [h.once.mem_erase_iff, h.owners]
    constructor
    · intro ho
      obtain ⟨hne, l', rfl, hl'⟩ := ho
      exact ⟨l', rfl, hl', fun heq => hne (congrArg some heq)⟩
    · intro ho
      obtain ⟨l', rfl, hl', hne⟩ := ho
      exact ⟨fun heq => hne (Option.some.inj heq), l', rfl, hl'⟩
  by_cases hsome : ∃ l', holder f.libraryPath l' ∧ l' ≠ l
  · obtain ⟨l', hl'⟩ := hsome
    exact .inl ⟨⟨l', hl'⟩, List.ne_nil_of_mem ((howners _).mpr ⟨l', rfl, hl'⟩), h.once.erase _, howners⟩
  · refine .inr ⟨hsome, List.eq_nil_iff_forall_not_mem.mpr fun o ho => hsome ?_⟩
    obtain ⟨l', -, hl'⟩ := (howners o).mp ho
    exact ⟨l', hl'⟩

end Owned

/-! ## What the calls do to a state whose open libraries are held -/

/-- The open libraries and the owners are as some loaders hold the libraries. -/
structure Held (holder : Str → Nat → Prop) (w : World) : Prop where
  opened : ∀ libraryPath, libraryPath ∈ w.openLibraries ↔ ∃ l, holder libraryPath l
  owned : ∀ k f, w.baseToFactoryMapMap.find k = some f → Owned holder f
  ofPath : ∀ libraryPath l, holder libraryPath l → w.path l = libraryPath

namespace World

variable {w : World} {l : Nat} {libraryPath : Str}

theorem path_setLoader {loader : Loader} (h : loader.libraryPath = w.path l) :
    (w.setLoader l loader).path = w.path := by
  funext l'
  show (Function.update w.loader l loader l').libraryPath = w.path l'
  by_cases hl : l' = l
  · rw [hl, Function.update_self]
    exact h
  · rw [Function.update_of_ne hl]
    rfl

theorem loadlibRefCount_set (w : World) (l : Nat) (count : Int) (l' : Nat) :
    ((w.setLoadlibRefCount l count).loader l').loadlibRefCount =
      if l' = l then count else (w.loader l').loadlibRefCount := by
  rw [setLoadlibRefCount, setLoader]
  show (Function.update w.loader l _ l').loadlibRefCount = _
  rw [Function.update_apply]
  split <;> rfl

theorem getAll_ne_nil_iff : w.getAllClassFactoryObjectsOfLibrary libraryPath ≠ [] ↔
    ∃ k f, w.baseToFactoryMapMap.find k = some f ∧ f.libraryPath = libraryPath := by
  constructor
  · intro h
    obtain ⟨f, hf⟩ := List.exists_mem_of_ne_nil _ h
    obtain ⟨hmem, hpath⟩ := List.mem_filter.mp hf
    obtain ⟨e, he, rfl⟩ := List.mem_map.mp hmem
    exact ⟨e.1, e.2, Map.mem_iff_find.mp he, of_decide_eq_true hpath⟩
  · intro h
    obtain ⟨k, f, hf, hpath⟩ := h
    exact List.ne_nil_of_mem (List.mem_filter.mpr
      ⟨List.mem_map.mpr ⟨_, Map.mem_iff_find.mpr hf, rfl⟩, decide_eq_true hpath⟩)

/-- A library that is loaded has one holder more. -/
theorem utilityLoadLibrary_held {holder : Str → Nat → Prop} (h : Held holder w) {dlopen : Opening}
    {loaded : Bool} {w' : World}
    (hcall : w.utilityLoadLibrary (w.path l) l dlopen = (loaded, w')) :
    w'.loader = w.loader ∧ w'.made = w.made ∧
      Held (fun libraryPath l' =>
        holder libraryPath l' ∨ loaded = true ∧ l' = l ∧ libraryPath = w.path l) w' := by
  have hpaths : ∀ libraryPath l', (holder libraryPath l' ∨ loaded = true ∧ l' = l ∧
      libraryPath = w.path l) → w.path l' = libraryPath := by
    intro libraryPath l' hl'
    rcases hl' with hl' | ⟨-, rfl, rfl⟩
    · exact h.ofPath _ _ hl'
    · rfl
  have hother : ∀ {f}, Owned holder f → f.libraryPath ≠ w.path l → Owned (fun libraryPath l' =>
      holder libraryPath l' ∨ loaded = true ∧ l' = l ∧ libraryPath = w.path l) f :=
    fun hf hne => hf.congr fun l' => or_iff_left fun hl' => hne hl'.2.2
  unfold utilityLoadLibrary at hcall
  split at hcall
  case isTrue hloaded =>
    obtain ⟨rfl, rfl⟩ := Prod.mk.inj hcall
    refine ⟨rfl, rfl, fun libraryPath => ?_, fun k f hf => ?_, hpaths⟩
    · rw [h.opened]
      refine ⟨fun hl' => hl'.imp fun l' hl' => .inl hl', fun hl' => ?_⟩
      obtain ⟨l', hl' | ⟨-, rfl, rfl⟩⟩ := hl'
      · exact ⟨l', hl'⟩
      · exact (h.opened _).mp (isLibraryLoaded_iff.mp hloaded)
    · obtain ⟨f', hf', heq⟩ := Option.bind_eq_some_iff.mp ((Map.find_adjust _ _).symm.trans hf)
      obtain rfl := Option.some.inj heq
      have howned := h.owned k f' hf'
      split
      case isTrue hpath =>
        exact howned.add hpath.symm fun l' => or_congr_right ⟨fun hl' => hl'.2.1, fun hl' => ⟨rfl, hl', hpath⟩⟩
      case isFalse hpath => exact hother howned hpath
  case isFalse hloaded =>
    have hnone : ∀ l', ¬ holder (w.path l) l' := fun l' hl' =>
      hloaded (isLibraryLoaded_iff.mpr ((h.opened _).mpr ⟨l', hl'⟩))
    cases dlopen with
    | none =>
        obtain ⟨rfl, rfl⟩ := Prod.mk.inj hcall
        refine ⟨rfl, rfl, fun libraryPath => ?_, fun k f hf => ?_, fun libraryPath l' hl' => ?_⟩
        · rw [h.opened]
          exact exists_congr fun l' => (or_iff_left fun hl' => Bool.false_ne_true hl'.1).symm
        · exact (h.owned k f hf).congr fun l' => or_iff_left fun hl' => Bool.false_ne_true hl'.1
        · exact h.ofPath _ _ (hl'.resolve_right fun hl' => Bool.false_ne_true hl'.1)
    | some classes =>
        obtain ⟨m, hm, hfind⟩ := foldl_registerClass (l := l) classes w
        obtain ⟨rfl, rfl⟩ := Prod.mk.inj hcall
        rw [hm]
        refine ⟨rfl, rfl, fun libraryPath => ?_, fun k f hf => ?_, hpaths⟩
        · show libraryPath ∈ w.openLibraries.insert (w.path l) _ ↔ _
          rw [AList.mem_insert, h.opened, or_comm, exists_or]
          refine or_congr_right ⟨fun heq => ⟨l, rfl, rfl, heq⟩, fun hl' => ?_⟩
          obtain ⟨l', -, -, heq⟩ := hl'
          exact heq
        · rcases hfind k f hf with hold | ⟨className, baseClassName, rfl⟩
          · have howned := h.owned k f hold
            refine hother howned fun hpath => ?_
            obtain ⟨l', hl'⟩ := howned.someHolder
            exact hnone l' (hpath ▸ hl')
          · refine owned_registered fun l' => ?_
            exact (or_iff_right (hnone l')).trans ⟨fun hl' => hl'.2.1, fun hl' => ⟨rfl, hl', rfl⟩⟩

section Unload

variable {holder : Str → Nat → Prop}

/-- A factory that is left belongs to the other holders. -/
theorem owned_destroy (h : Held holder w) {f f' : ClassFactory} (hf : Owned holder f)
    (hleft : f.destroyOfLibrary (w.path l) l = some f') :
    f'.libraryPath = f.libraryPath ∧
      Owned (fun libraryPath l' => holder libraryPath l' ∧ l' ≠ l) f' := by
  unfold ClassFactory.destroyOfLibrary at hleft
  split at hleft
  case isTrue =>
    dsimp only at hleft
    split at hleft
    case isTrue hany =>
      obtain rfl := Option.some.inj hleft
      rcases hf.remove l with hsome | hnone
      · exact ⟨rfl, hsome.2⟩
      · rw [ClassFactory.isOwnedByAnybody, hnone.2] at hany
        cases hany
    case isFalse => cases hleft
  case isFalse hout =>
    obtain rfl := Option.some.inj hleft
    refine ⟨rfl, hf.congr fun l' => and_iff_left_of_imp ?_⟩
    rintro hl' rfl
    exact hout ⟨(h.ofPath _ _ hl').symm, decide_eq_true (hf.mem.mpr hl')⟩

/-- A factory is left while somebody else holds its library. -/
theorem destroy_isSome {f : ClassFactory} (hf : Owned holder f)
    (hother : ∃ l', holder f.libraryPath l' ∧ l' ≠ l) :
    ∃ f', f.destroyOfLibrary libraryPath l = some f' := by
  unfold ClassFactory.destroyOfLibrary
  split
  case isTrue =>
    rcases hf.remove l with hsome | hnone
    · exact ⟨_, if_pos (by simpa [ClassFactory.isOwnedByAnybody] using hsome.2.someone)⟩
    · exact absurd hother hnone.1
  case isFalse => exact ⟨f, rfl⟩

theorem find_destroy {k : Str ×ₗ Str} {f : ClassFactory} :
    (w.destroyClassFactoryObjectsOfLibrary libraryPath l).baseToFactoryMapMap.find k = some f ↔
      ∃ f', w.baseToFactoryMapMap.find k = some f' ∧ f'.destroyOfLibrary libraryPath l = some f := by
  rw [destroyClassFactoryObjectsOfLibrary, Map.find_adjust]
  exact Option.bind_eq_some_iff

/-- The library has factories left if it had some and somebody else holds it. -/
theorem getAll_destroy (h : Held holder w) :
    (w.destroyClassFactoryObjectsOfLibrary (w.path l) l).getAllClassFactoryObjectsOfLibrary
        (w.path l) ≠ [] ↔
      (∃ l', holder (w.path l) l' ∧ l' ≠ l) ∧
        w.getAllClassFactoryObjectsOfLibrary (w.path l) ≠ [] := by
  rw [getAll_ne_nil_iff, getAll_ne_nil_iff]
  constructor
  · intro hleft
    obtain ⟨k, f', hf', hpath⟩ := hleft
    obtain ⟨f, hf, hdestroy⟩ := find_destroy.mp hf'
    obtain ⟨hsame, howned⟩ := owned_destroy h (h.owned k f hf) hdestroy
    exact ⟨hpath ▸ howned.someHolder, k, f, hf, hsame.symm.trans hpath⟩
  · intro hleft
    obtain ⟨hother, k, f, hf, hpath⟩ := hleft
    obtain ⟨f', hf'⟩ := destroy_isSome (h.owned k f hf) (hpath.symm ▸ hother)
    exact ⟨k, f', find_destroy.mpr ⟨f, hf, hf'⟩, (owned_destroy h (h.owned k f hf) hf').1.trans hpath⟩

/-- A library that a loader lets go of is open as others hold it, exactly if one of its
factories is there where another one does. -/
theorem utilityUnloadLibrary_held (h : Held holder w) (l : Nat) :
    (w.utilityUnloadLibrary (w.path l) l).loader = w.loader ∧
      (w.utilityUnloadLibrary (w.path l) l).made = w.made ∧
      (∀ k f, (w.utilityUnloadLibrary (w.path l) l).baseToFactoryMapMap.find k = some f →
        Owned (fun libraryPath l' => holder libraryPath l' ∧ l' ≠ l) f) ∧
      ((∀ libraryPath, libraryPath ∈ (w.utilityUnloadLibrary (w.path l) l).openLibraries ↔
          ∃ l', holder libraryPath l' ∧ l' ≠ l) ↔
        ((∃ l', holder (w.path l) l' ∧ l' ≠ l) →
          w.getAllClassFactoryObjectsOfLibrary (w.path l) ≠ [])) := by
  have hothers : ∀ libraryPath, libraryPath ≠ w.path l →
      (libraryPath ∈ w.openLibraries ↔ ∃ l', holder libraryPath l' ∧ l' ≠ l) := by
    intro libraryPath hne
    refine (h.opened libraryPath).trans (exists_congr fun l' => (and_iff_left_of_imp ?_).symm)
    rintro hl' rfl
    exact hne (h.ofPath _ _ hl').symm
  have howned : ∀ k f,
      (w.destroyClassFactoryObjectsOfLibrary (w.path l) l).baseToFactoryMapMap.find k = some f →
        Owned (fun libraryPath l' => holder libraryPath l' ∧ l' ≠ l) f := by
    intro k f hf
    obtain ⟨f', hf', hdestroy⟩ := find_destroy.mp hf
    exact (owned_destroy h (h.owned k f' hf') hdestroy).2
  unfold utilityUnloadLibrary
  split
  case isTrue hloaded =>
    have hleft := getAll_destroy (l := l) h
    dsimp only
    split
    case isTrue hempty =>
      have hnone := mt hleft.mpr fun hsome => hsome (List.isEmpty_iff.mp hempty)
      refine ⟨rfl, rfl, howned, ⟨fun hopen hother hnil => ?_, fun hbacked libraryPath => ?_⟩⟩
      · exact (AList.mem_erase.mp ((hopen (w.path l)).mpr hother)).1 rfl
      · show libraryPath ∈ w.openLibraries.erase (w.path l) ↔ _
        rw [AList.mem_erase]
        by_cases hpath : libraryPath = w.path l
        · rw [hpath]
          exact iff_of_false (fun hopen => hopen.1 rfl) fun hother => hnone ⟨hother, hbacked hother⟩
        · rw [hothers libraryPath hpath]
          exact and_iff_right hpath
    case isFalse hempty =>
      have hsome := hleft.mp fun hnil => hempty (List.isEmpty_iff.mpr hnil)
      refine ⟨rfl, rfl, howned, iff_of_true (fun libraryPath => ?_) fun _ => hsome.2⟩
      by_cases hpath : libraryPath = w.path l
      · rw [hpath]
        exact iff_of_true (isLibraryLoaded_iff.mp hloaded) hsome.1
      · exact hothers libraryPath hpath
  case isFalse hloaded =>
    have hnone : ∀ l', ¬ holder (w.path l) l' := fun l' hl' =>
      hloaded (isLibraryLoaded_iff.mpr ((h.opened _).mpr ⟨l', hl'⟩))
    have hout : ∀ libraryPath l', holder libraryPath l' → l' ≠ l := by
      rintro libraryPath l' hl' rfl
      exact hnone l' (h.ofPath _ _ hl' ▸ hl')
    refine ⟨rfl, rfl, fun k f hf => ?_, iff_of_true (fun libraryPath => ?_) fun hother => ?_⟩
    · exact (h.owned k f hf).congr fun l' => and_iff_left_of_imp (hout _ l')
    · exact (h.opened libraryPath).trans
        (exists_congr fun l' => (and_iff_left_of_imp (hout _ l')).symm)
    · obtain ⟨l', hl', -⟩ := hother
      exact absurd hl' (hnone l')

end Unload

end World

namespace Watch

variable {t : Watch} {l : Nat}

/-- The open libraries are held, and the loaders that hold them have counts. -/
structure Inv (t : Watch) : Prop where
  held : Held t.Holder t.world
  counts : ∀ l, 0 ≤ (t.world.loader l).loadlibRefCount
  holds : ∀ l, t.holds l = true → l < t.world.made ∧ 0 < (t.world.loader l).loadlibRefCount

/-- One loader gets other counts. -/
theorem inv_setLoader (h : t.Inv) {loader : Loader} (hpath : loader.libraryPath = t.world.path l)
    (hcount : 0 ≤ loader.loadlibRefCount) (hholds : t.holds l = true → 0 < loader.loadlibRefCount) :
    Inv { t with world := t.world.setLoader l loader } := by
  have hsame : (t.world.setLoader l loader).path = t.world.path := World.path_setLoader hpath
  have hholder : Holder { t with world := t.world.setLoader l loader } = t.Holder := by
    funext libraryPath l'
    rw [Holder, hsame]
    rfl
  have hself : (t.world.setLoader l loader).loader l = loader := Function.update_self ..
  have hother : ∀ l', l' ≠ l → (t.world.setLoader l loader).loader l' = t.world.loader l' :=
    fun l' hne => Function.update_of_ne hne _ _
  refine ⟨⟨fun libraryPath => ?_, fun k f hf => ?_, fun libraryPath l' hl' => hl'.2⟩,
    fun l' => ?_, fun l' hl' => ⟨(h.holds l' hl').1, ?_⟩⟩
  · rw [hholder]
    exact h.held.opened libraryPath
  · rw [hholder]
    exact h.held.owned k f hf
  · by_cases hl : l' = l
    · rw [hl, hself]
      exact hcount
    · rw [hother l' hl]
      exact h.counts l'
  · by_cases hl : l' = l
    · rw [hl, hself]
      exact hholds (hl ▸ hl')
    · rw [hother l' hl]
      exact (h.holds l' hl').2

theorem inv_initLoader (h : t.Inv) (libraryPath : Str) :
    Inv { t with world := t.world.initLoader libraryPath } := by
  have hself : (t.world.initLoader libraryPath).loader t.world.made = { libraryPath } :=
    Function.update_self ..
  have hother : ∀ l', l' ≠ t.world.made →
      (t.world.initLoader libraryPath).loader l' = t.world.loader l' :=
    fun l' hne => Function.update_of_ne hne _ _
  have hold : ∀ l', t.holds l' = true → l' ≠ t.world.made := fun l' hl' =>
    Nat.ne_of_lt (h.holds l' hl').1
  have hholder : Holder { t with world := t.world.initLoader libraryPath } = t.Holder := by
    funext libraryPath' l'
    refine propext (and_congr_right fun hl' => ?_)
    show ((t.world.initLoader libraryPath).loader l').libraryPath = libraryPath' ↔ _
    rw [hother l' (hold l' hl')]
    rfl
  refine ⟨⟨fun libraryPath => ?_, fun k f hf => ?_, fun libraryPath l' hl' => hl'.2⟩,
    fun l' => ?_, fun l' hl' => ?_⟩
  · rw [hholder]
    exact h.held.opened libraryPath
  · rw [hholder]
    exact h.held.owned k f hf
  · by_cases hl : l' = t.world.made
    · rw [hl, hself]
    · rw [hother l' hl]
      exact h.counts l'
  · rw [hother l' (hold l' hl')]
    exact ⟨Nat.lt_succ_of_lt (h.holds l' hl').1, (h.holds l' hl').2⟩

theorem inv_load (h : t.Inv) (hl : l < t.world.made) (dlopen : Opening) : (t.load l dlopen).Inv := by
  have hcount := h.counts l
  rcases hcall : t.world.loadLibrary l dlopen with ⟨loaded, w'⟩
  have hload : t.load l dlopen =
      { world := w', holds := if loaded then Function.update t.holds l true else t.holds } := by
    rw [load, hcall]
  obtain ⟨w, hw⟩ : ∃ w, w = t.world.setLoadlibRefCount l ((t.world.loader l).loadlibRefCount + 1) :=
    ⟨_, rfl⟩
  have hset : Inv { t with world := w } := by
    rw [hw]
    exact inv_setLoader h rfl (Int.le_add_one hcount) fun _ => Int.lt_add_one_of_le hcount
  have hpath : w.path = t.world.path := by
    rw [hw]
    exact World.path_setLoader rfl
  rw [World.loadLibrary, ← hpath, ← hw] at hcall
  obtain ⟨hloader, hmade, hheld⟩ := World.utilityLoadLibrary_held hset.held hcall
  have hholds : ∀ l', (t.load l dlopen).holds l' = true ↔ t.holds l' = true ∨ loaded = true ∧ l' = l := by
    intro l'
    rw [hload]
    cases loaded with
    | false => exact (or_iff_left fun hl' => Bool.false_ne_true hl'.1).symm
    | true =>
        show Function.update t.holds l true l' = true ↔ _
        by_cases hl' : l' = l
        · rw [hl', Function.update_self]
          exact iff_of_true rfl (.inr ⟨rfl, rfl⟩)
        · rw [Function.update_of_ne hl']
          exact (or_iff_left fun hr => hl' hr.2).symm
  have hworld : (t.load l dlopen).world = w' := by rw [hload]
  have hholder : (t.load l dlopen).Holder = fun libraryPath l' =>
      Holder { t with world := w } libraryPath l' ∨ loaded = true ∧ l' = l ∧ libraryPath = w.path l := by
    funext libraryPath l'
    have hsame : (t.load l dlopen).world.path l' = w.path l' := by
      rw [World.path, hworld, hloader]
      rfl
    rw [Holder, hholds, hsame, or_and_right]
    refine propext (or_congr_right ?_)
    rw [and_assoc]
    exact and_congr_right fun _ => and_congr_right fun heq => heq ▸ eq_comm
  refine ⟨?_, fun l' => ?_, fun l' hl' => ?_⟩
  · rw [hholder, hworld]
    exact hheld
  · rw [hworld, hloader]
    exact hset.counts l'
  · rw [hworld, hloader, hmade]
    rcases (hholds l').mp hl' with hold | ⟨-, rfl⟩
    · exact hset.holds l' hold
    · refine ⟨hw ▸ hl, ?_⟩
      show 0 < (w.loader l').loadlibRefCount
      rw [hw, World.loadlibRefCount_set, if_pos rfl]
      exact Int.lt_add_one_of_le hcount

/-- A loader lets go: the open libraries are held by the others exactly if the library has a
factory where somebody else holds it. -/
theorem unload_letsGo (h : t.Inv) (hgo : t.LetsGo l) :
    ((t.unload l).Right ↔ ((∃ l', l' ≠ l ∧ t.Holder (t.world.path l) l') →
      t.world.getAllClassFactoryObjectsOfLibrary (t.world.path l) ≠ [])) ∧
    ((t.unload l).Right → (t.unload l).Inv) := by
  obtain ⟨-, hobj, hone⟩ := hgo
  obtain ⟨w, hw⟩ : ∃ w, w = t.world.setLoadlibRefCount l 0 := ⟨_, rfl⟩
  obtain ⟨s, hs⟩ : ∃ s : Watch, s = { world := w, holds := Function.update t.holds l false } :=
    ⟨_, rfl⟩
  have hpath : w.path = t.world.path := by
    rw [hw]
    exact World.path_setLoader rfl
  have hunload : t.unload l =
      { world := w.utilityUnloadLibrary (w.path l) l, holds := Function.update t.holds l false } := by
    rw [unload, World.unloadLibrary_last hobj hone, hpath, hw]
    rfl
  have hheld : Held t.Holder w := by
    refine ⟨fun libraryPath => ?_, fun k f hf => ?_, fun libraryPath l' hl' => hpath ▸ hl'.2⟩
    · rw [hw]
      exact h.held.opened libraryPath
    · rw [hw] at hf
      exact h.held.owned k f hf
  obtain ⟨hloader, hmade, howned, hopen⟩ := World.utilityUnloadLibrary_held hheld l
  have hholder : ∀ libraryPath l', (t.unload l).Holder libraryPath l' ↔
      t.Holder libraryPath l' ∧ l' ≠ l := by
    intro libraryPath l'
    have hsame : (t.unload l).world.path l' = t.world.path l' := by
      rw [hunload, World.path, hloader, ← hpath]
      rfl
    rw [Holder, Holder, hsame, hunload]
    show Function.update t.holds l false l' = true ∧ _ ↔ _
    by_cases hl' : l' = l
    · rw [hl', Function.update_self]
      exact iff_of_false (fun hf => Bool.false_ne_true hf.1) fun hne => hne.2 rfl
    · rw [Function.update_of_ne hl']
      exact (and_iff_left hl').symm
  have hworld : (t.unload l).world = w.utilityUnloadLibrary (w.path l) l := by rw [hunload]
  have hright : (t.unload l).Right ↔
      ∀ libraryPath, libraryPath ∈ (w.utilityUnloadLibrary (w.path l) l).openLibraries ↔
        ∃ l', t.Holder libraryPath l' ∧ l' ≠ l := by
    refine forall_congr' fun libraryPath => ?_
    rw [hworld]
    exact iff_congr Iff.rfl (exists_congr fun l' => hholder libraryPath l')
  have hfactories : w.getAllClassFactoryObjectsOfLibrary (t.world.path l) =
      t.world.getAllClassFactoryObjectsOfLibrary (t.world.path l) := by
    rw [hw]
    rfl
  constructor
  · rw [hright, hopen, hpath, hfactories]
    exact imp_congr_left (exists_congr fun l' => and_comm)
  · intro hr
    have hcounts : ∀ l', (w.loader l').loadlibRefCount =
        if l' = l then 0 else (t.world.loader l').loadlibRefCount := by
      intro l'
      rw [hw, World.loadlibRefCount_set]
    refine ⟨⟨hr, fun k f hf => ?_, fun libraryPath l' hl' => hl'.2⟩, fun l' => ?_, fun l' hl' => ?_⟩
    · rw [hworld] at hf
      exact (howned k f hf).congr (hholder f.libraryPath)
    · rw [hworld, hloader, hcounts]
      split
      · exact Int.le_refl 0
      · exact h.counts l'
    · obtain ⟨hold, hne⟩ := (hholder _ l').mp ⟨hl', rfl⟩
      rw [hworld, hloader, hmade, hcounts, if_neg hne, hw]
      exact h.holds l' hold.1

/-- A loader that does not let go keeps what is open and what it holds. -/
theorem inv_unload (h : t.Inv) (hl : l < t.world.made) (hstay : ¬ t.LetsGo l) : (t.unload l).Inv := by
  have hidle : (t.world.loader l).loadlibRefCount ≤ 0 → Function.update t.holds l false = t.holds := by
    intro hcount
    have hfalse : t.holds l = false :=
      Bool.eq_false_iff.mpr fun hholds => Int.not_lt.mpr hcount (h.holds l hholds).2
    rw [← hfalse]
    exact Function.update_eq_self l t.holds
  rw [unload, World.unloadLibrary]
  split
  case isTrue =>
    dsimp only
    split
    case isTrue hzero =>
      rw [hidle (Int.le_of_eq hzero)]
      exact h
    case isFalse => exact h
  case isFalse hobj =>
    dsimp only
    split
    case isTrue hone => exact absurd ⟨hl, Int.not_lt.mp hobj, by omega⟩ hstay
    case isFalse hmore =>
      generalize hc : (if (t.world.loader l).loadlibRefCount - 1 < 0 then 0
        else (t.world.loader l).loadlibRefCount - 1) = count
      have hcount : 0 < count ∨ count = 0 ∧ (t.world.loader l).loadlibRefCount ≤ 0 := by
        rw [← hc]
        split <;> omega
      have hholds : (if count = 0 then Function.update t.holds l false else t.holds) = t.holds := by
        split
        case isTrue hzero => exact hidle (by omega)
        case isFalse => rfl
      rw [hholds]
      refine inv_setLoader h rfl (by show 0 ≤ count; omega) fun hl' => ?_
      have hpos := (h.holds l hl').2
      show 0 < count
      omega

theorem inv_step (h : t.Inv) (call : Call) (hbacked : t.Backed call) : (t.step call).Inv := by
  cases call with
  | newClassLoader libraryPath dlopen =>
      exact inv_load (inv_initLoader h libraryPath) (Nat.lt_succ_self _) dlopen
  | loadLibrary l dlopen =>
      show (if l < t.world.made then t.load l dlopen else t).Inv
      split
      case isTrue hl => exact inv_load h hl dlopen
      case isFalse => exact h
  | unloadLibrary l =>
      show (if l < t.world.made then t.unload l else t).Inv
      split
      case isTrue hl =>
        by_cases hgo : t.LetsGo l
        · obtain ⟨hright, hinv⟩ := unload_letsGo h hgo
          exact hinv (hright.mpr (hbacked hgo))
        · exact inv_unload h hl hgo
      case isFalse => exact h
  | createClassObj l base className dlopen =>
      unfold step
      dsimp only
      split
      case isTrue hl =>
        obtain ⟨t', ht'⟩ :
            ∃ t', t' = if t.world.isLibraryLoaded (t.world.path l) then t else t.load l dlopen :=
          ⟨_, rfl⟩
        have hinv : t'.Inv := by
          rw [ht']
          split
          · exact h
          · exact inv_load h hl dlopen
        have hworld : t'.world = if t.world.isLibraryLoaded (t.world.path l) then t.world
            else (t.world.loadLibrary l dlopen).2 := by
          rw [ht']
          split <;> rfl
        rw [World.createClassObj, ← ht', ← hworld]
        split
        · exact inv_setLoader hinv rfl (hinv.counts l) fun hl' => (hinv.holds l hl').2
        · exact hinv
      case isFalse => exact h
  | deleteClassObj l =>
      show (if l < t.world.made then { t with world := t.world.deleteClassObj l } else t : Watch).Inv
      split
      case isTrue hl =>
        unfold World.deleteClassObj
        dsimp only
        split
        case isTrue => exact inv_setLoader h rfl (h.counts l) fun hl' => (h.holds l hl').2
        case isFalse => exact h
      case isFalse => exact h

/-- What a step does to a state whose open libraries are held, and when it goes wrong. -/
theorem step_backed (h : t.Inv) (call : Call) (hright : (t.step call).Right) : t.Backed call := by
  cases call with
  | unloadLibrary l =>
      intro hgo
      refine (unload_letsGo h hgo).1.mp ?_
      have hstep : t.step (.unloadLibrary l) = t.unload l := if_pos hgo.1
      rwa [← hstep]
  | _ => trivial

/-- In every run the open libraries are those that are held, exactly if the run backs whoever
holds a library that another one lets go of. -/
theorem open_iff_held (calls : List Call) :
    (∀ t ∈ Run.states step {} calls, t.Right) ↔ Run.Along step Backed {} calls := by
  have hinit : Inv {} := by
    refine ⟨⟨fun libraryPath => ?_, fun k f hf => absurd hf (Option.some_ne_none f).symm,
      fun libraryPath l hl => hl.2⟩, fun l => Int.le_refl 0, fun l hl => absurd hl Bool.false_ne_true⟩
    refine iff_of_false (AList.notMem_empty libraryPath) fun hheld => ?_
    obtain ⟨l, hl, -⟩ := hheld
    exact Bool.false_ne_true hl
  exact Run.forall_states_iff_along (fun t h => h.held.opened) (fun t call h hC => inv_step h call hC)
    (fun t call h hr => step_backed h call hr) hinit

/-- Two loaders of a library that registers no class: the first to let go closes it. -/
theorem empty_library_closed :
    ¬ ∀ t ∈ Run.states step {} [.newClassLoader [0x61] (some []), .newClassLoader [0x61] none,
      .unloadLibrary 0], t.Right := by
  intro h
  have hright := h _ (Run.exec_mem_states step {} _) [0x61]
  exact absurd (hright.mpr ⟨1, rfl, rfl⟩) (by decide)

end Watch

end ClassLoader
end Cmw
