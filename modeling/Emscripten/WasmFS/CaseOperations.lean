-- SUMMARY: What each operation on a case-insensitive directory does to the wrappers, the wrapped directories and the mounts.
import Emscripten.WasmFS.CasePairing

/-!
# Operations on case-insensitive directories

One lemma for each operation of `CaseDirectory` on a state whose layers are paired: it
runs through, and the layers it leaves are paired. The only mounts it leaves are those
that were there, but for the one that `mountChild` makes.
-/

namespace WasmFS

open Assoc Prog

/-! ## Normalized names -/

theorem toNat_toLower (c : Char) :
    c.toLower.toNat = if 65 ≤ c.toNat ∧ c.toNat ≤ 90 then c.toNat + 32 else c.toNat := by
  unfold Char.toLower
  by_cases h : c.val ≥ 'A'.val ∧ c.val ≤ 'Z'.val
  · have hnat : 65 ≤ c.toNat ∧ c.toNat ≤ 90 := h
    rw [dif_pos h, if_pos hnat]
    change (c.val + 32).toNat = c.toNat + 32
    rw [UInt32.toNat_add]
    have hval : c.val.toNat = c.toNat := rfl
    rw [hval]
    have h32 : (32 : UInt32).toNat = 32 := rfl
    omega
  · have hnat : ¬ (65 ≤ c.toNat ∧ c.toNat ≤ 90) := h
    rw [dif_neg h, if_neg hnat]

/-- No other name has the same normalized spelling. -/
def SoleSpelling (n : Name) : Prop := ∀ m, normalize m = normalize n → m = n

/-- A character that is no letter, in either case. -/
def Uncased (c : Char) : Prop :=
  ¬ (65 ≤ c.toNat ∧ c.toNat ≤ 90) ∧ ¬ (97 ≤ c.toNat ∧ c.toNat ≤ 122)

instance (c : Char) : Decidable (Uncased c) := inferInstanceAs (Decidable (_ ∧ _))

variable {L : Layers} {i : ChildInfo} {n : Name} {x : File} {r : FileId} {k : Name} {D : FileId} {t : Tree}

/-- A name without letters has one spelling. -/
theorem soleSpelling_of_uncased (h : ∀ c ∈ n, Uncased c) : SoleSpelling n := by
  induction n with
  | nil =>
    intro m hm
    exact List.map_eq_nil_iff.mp hm
  | cons c n ih =>
    intro m hm
    cases m with
    | nil => cases hm
    | cons c' m =>
      obtain ⟨hc, hm⟩ := List.cons.inj hm
      have hnat : c'.toLower.toNat = c.toLower.toNat := congrArg Char.toNat hc
      rw [toNat_toLower, toNat_toLower] at hnat
      obtain ⟨hupper, hlower⟩ := h c List.mem_cons_self
      rw [if_neg hupper] at hnat
      have hsame : c'.toNat = c.toNat := by
        split at hnat
        · omega
        · exact hnat
      rw [show c' = c from Char.toNat_inj.mp hsame,
        ih (fun x hx => h x (List.mem_cons_of_mem c hx)) m hm]

theorem soleSpelling_dot : SoleSpelling dot :=
  soleSpelling_of_uncased (List.forall_mem_singleton.mpr (by decide))

theorem soleSpelling_dotDot : SoleSpelling dotDot :=
  soleSpelling_of_uncased (List.forall_mem_cons.mpr ⟨by decide, List.forall_mem_singleton.mpr (by decide)⟩)

/-! ## The layers of a state -/

namespace CaseFS

def layers (s : CaseFS) : Layers where
  tree := s.fs.tree
  real := s.real
  child := s.child

variable (s : CaseFS) {d : FileId}

theorem layers_modifyFS {g : FS → FS} {u : Tree → Tree} (h : (g s.fs).tree = u s.fs.tree) :
    (s.modifyFS g).layers = s.layers.onTree u := by
  unfold layers Layers.onTree modifyFS
  rw [← h]
  rfl

theorem real_modifyChildren (g : AList (fun _ : Name => ChildInfo) → AList (fun _ : Name => ChildInfo)) :
    (s.modifyChildren d g).real = s.real := by
  funext f
  simp only [real, modifyChildren, Function.update_apply]
  split
  · next h =>
      rw [h, Option.map_map]
      rfl
  · rfl

theorem layers_modifyChildren {i : Option ChildInfo}
    {g : AList (fun _ : Name => ChildInfo) → AList (fun _ : Name => ChildInfo)} (hd : s.real d = some D)
    (hg : ∀ m n', (g m).lookup n' = if n' = n then i else m.lookup n') :
    (s.modifyChildren d g).layers = s.layers.setChild d n i := by
  obtain ⟨v, hv, rfl⟩ := Option.map_eq_some_iff.mp hd
  have hchild : (s.modifyChildren d g).child = (s.layers.setChild d n i).child := by
    funext d' n'
    rw [Layers.setChild_child]
    simp only [child, modifyChildren, Function.update_apply, layers]
    by_cases hd' : d' = d
    · rw [if_pos hd', hd', hv]
      simp [hg]
    · simp [hd']
  unfold layers
  rw [hchild, real_modifyChildren]
  rfl

theorem layers_insertChild (hd : s.real d = some D) (n : Name) (i : ChildInfo) :
    (s.modifyChildren d fun m => m.insert n i).layers = s.layers.setChild d n (some i) := by
  apply s.layers_modifyChildren hd
  intro m n'
  split
  · next h => rw [h, AList.lookup_insert]
  · next h => rw [AList.lookup_insert_ne h]

theorem layers_eraseChild (hd : s.real d = some D) (n : Name) :
    (s.modifyChildren d fun m => m.erase n).layers = s.layers.setChild d n none := by
  apply s.layers_modifyChildren hd
  intro m n'
  split
  · next h => rw [h, AList.lookup_erase]
  · next h => rw [AList.lookup_erase_ne h]

/-- The layers are paired, and all addresses in them are in use. -/
structure Sound (s : CaseFS) (sp : FileId → Name) : Prop where
  paired : s.layers.Paired sp
  within : s.layers.Within s.fs.nextFile

theorem Sound.of_layers {s : CaseFS} {sp : FileId → Name} (h : s.layers = L) (hp : L.Paired sp)
    (hw : L.Within s.fs.nextFile) : s.Sound sp :=
  ⟨h ▸ hp, h ▸ hw⟩

/-- The mounts of `s'` are all in `s`. -/
def MountsFrom (s s' : CaseFS) : Prop :=
  ∀ d n e, s'.layers.tree.mount d n = some e → s.layers.tree.mount d n = some e

end CaseFS

/-! ## What the operations do -/

section Operations

variable {s : CaseFS} {sp : FileId → Name} {d D f : FileId} {name : Name}

theorem thisDirectory_apply (hd : s.real d = some D) :
    ∃ v, s.virtual d = some v ∧ v.real = D ∧ thisDirectory d s = some (s, .ok v) := by
  obtain ⟨v, hv, rfl⟩ := Option.map_eq_some_iff.mp hd
  refine ⟨v, hv, rfl, ?_⟩
  unfold thisDirectory
  rw [hv]

theorem child_eq_lookup {v : Virtual} (hv : s.virtual d = some v) (n : Name) :
    s.layers.child d n = v.children.lookup n := by
  change (s.virtual d).bind _ = _
  rw [hv]
  rfl

theorem onFiles_apply {α : Type} {m : Sys α} {fs : FS} {r : Except Errno α} (h : m s.fs = some (fs, r)) :
    onFiles m s = some ({ s with fs := fs }, r) := by
  unfold onFiles
  rw [h]

/-- A name that the map does not have is not found in the wrapped directory either. -/
theorem getChild_real (h : s.layers.Paired sp) (hd : s.real d = some D) (hdot : name ≠ dot)
    (hdots : name ≠ dotDot) (hnone : s.layers.child d (normalize name) = none) :
    Directory.getChild D (normalize name) s.fs = some (s.fs, .ok none) := by
  have hdot' : normalize name ≠ dot := fun heq => hdot (soleSpelling_dot name heq)
  have hdots' : normalize name ≠ dotDot := fun heq => hdots (soleSpelling_dotDot name heq)
  have hmount : (s.fs.file D).dcache.lookup (normalize name) = none := h.real_mount d D _ hd
  have hentry : s.fs.memoryGetChild D (normalize name) = none := by
    have hlook := h.lookup_entries (n := normalize name) hd
    rw [hnone] at hlook
    exact hlook
  unfold Directory.getChild
  cases (s.fs.file D).parent with
  | none => rfl
  | some p => simp only [if_neg hdot', if_neg hdots', hmount, hentry]

/-- A lookup changes nothing. -/
theorem CaseDirectory.getChild_apply (h : s.layers.Paired sp) (hd : s.real d = some D) (name : Name) :
    CaseDirectory.getChild d name s = some (s, .ok (s.layers.find d name)) := by
  obtain ⟨v, hv, rfl, hthis⟩ := thisDirectory_apply hd
  have hparent : s.layers.tree.parent d = (s.fs.file d).parent := rfl
  unfold CaseDirectory.getChild Layers.find
  have hmount : s.layers.tree.mount d name = (s.fs.file d).dcache.lookup name := rfl
  rw [hparent, hmount]
  cases (s.fs.file d).parent with
  | none => rfl
  | some p =>
    simp only []
    split
    · rfl
    next hdot =>
    split
    · rfl
    next hdots =>
    cases (s.fs.file d).dcache.lookup name with
    | some e => rfl
    | none =>
      simp only []
      cases hi : s.layers.child d (normalize name) with
      | some i =>
        have hget : IgnoreCaseDirectory.getChild d name s = some (s, .ok (some i.child)) := by
          refine (bind_of_ok hthis).trans ?_
          rw [← child_eq_lookup hv, hi]
          rfl
        refine (bind_of_ok hget).trans ?_
        change some (s.modifyFS fun fs => fs.cacheChild d name i.child .normal, _) = _
        have hsame : s.fs.cacheChild d name i.child .normal = s.fs :=
          s.fs.setParent_eq_self i.child (h.child_parent d _ i hi)
        rw [show (s.modifyFS fun fs => fs.cacheChild d name i.child .normal) = s from
          congrArg (fun fs => { s with fs := fs }) hsame]
        rfl
      | none =>
        have hget : IgnoreCaseDirectory.getChild d name s = some (s, .ok none) := by
          refine (bind_of_ok hthis).trans ?_
          rw [← child_eq_lookup hv, hi]
          exact bind_of_ok (onFiles_apply (getChild_real h hd hdot hdots hi))
        exact bind_of_ok hget

/-! ### Insertion -/

/-- A file as it comes from a backend. -/
structure File.Fresh (x : File) : Prop where
  parent : x.parent = none
  entries : x.entries = []
  dcache : x.dcache = emptyDCache

/-- The insertion of the new file `x`. -/
def FS.insertFile (fs : FS) (D : FileId) (n : Name) (x : File) : FS :=
  (((fs.addFile x).memoryInsertChild D n fs.nextFile).cacheChild D n fs.nextFile .normal).updateMTime D

/-- One of the three `insert` functions of a memory directory. -/
def InsertsFile (insert : FileId → Name → Sys (Option FileId)) : Prop :=
  ∀ D n fs, ((fs.file D).parent = none ∧ insert D n fs = some (fs, .ok none)) ∨
    ∃ x : File, x.Fresh ∧ insert D n fs = some (fs.insertFile D n x, .ok (some fs.nextFile))

theorem insertsFile_dataFile (mode : Nat) :
    InsertsFile fun D n => Directory.insertDataFile D n mode := by
  intro D n fs
  by_cases hp : (fs.file D).parent = none
  · exact .inl ⟨hp, if_pos hp⟩
  · refine .inr ⟨newDataFile (fs.file D).backend mode fs.env.now, ⟨rfl, rfl, rfl⟩, ?_⟩
    exact (if_neg hp).trans rfl

theorem insertsFile_directory (mode : Nat) :
    InsertsFile fun D n => Directory.insertDirectory D n mode := by
  intro D n fs
  by_cases hp : (fs.file D).parent = none
  · exact .inl ⟨hp, if_pos hp⟩
  · refine .inr ⟨newDirectory (fs.file D).backend mode fs.env.now, ⟨rfl, rfl, rfl⟩, ?_⟩
    exact (if_neg hp).trans rfl

theorem insertsFile_symlink (target : Path) :
    InsertsFile fun D n => Directory.insertSymlink D n target := by
  intro D n fs
  by_cases hp : (fs.file D).parent = none
  · exact .inl ⟨hp, if_pos hp⟩
  · refine .inr ⟨newSymlink (fs.file D).backend target fs.env.now, ⟨rfl, rfl, rfl⟩, ?_⟩
    exact (if_neg hp).trans rfl

/-- A new file is not in the tree. -/
theorem tree_addFile_fresh (hw : s.layers.Within s.fs.nextFile) (hx : x.Fresh) :
    (s.fs.addFile x).tree = s.fs.tree :=
  s.fs.tree_addFile hx.parent hx.entries hx.dcache (hw.blank_parent _ (Nat.le_refl _))
    (hw.blank_entries _ (Nat.le_refl _)) fun n => hw.blank_mount _ n (Nat.le_refl _)

theorem tree_insertFile (hw : s.layers.Within s.fs.nextFile) (hx : x.Fresh) (D : FileId) (n : Name) :
    (s.fs.insertFile D n x).tree =
      (s.fs.tree.setEntries D (s.fs.tree.entries D ++ [(n, s.fs.nextFile)])).setParent
        s.fs.nextFile (some D) := by
  unfold FS.insertFile
  rw [FS.tree_updateMTime, FS.tree_cacheChild_normal, FS.tree_memoryInsertChild,
    tree_addFile_fresh hw hx]

/-- A new wrapper for `r`. -/
def CaseFS.wrapped (s : CaseFS) (r : FileId) (x : File) : CaseFS :=
  { fs := s.fs.addFile x
    virtual := Function.update s.virtual s.fs.nextFile (some ⟨r, ∅⟩) }

theorem virtualize_apply (s : CaseFS) (r : FileId) (backend : Option Backend) :
    ∃ x : File, x.Fresh ∧ virtualize r backend s = some (s.wrapped r x, .ok s.fs.nextFile) :=
  ⟨_, ⟨rfl, rfl, rfl⟩, rfl⟩

theorem CaseFS.layers_wrapped (hw : s.layers.Within s.fs.nextFile) (hx : x.Fresh)
    (hchild : ∀ n, s.layers.child s.fs.nextFile n = none) :
    (s.wrapped r x).layers = s.layers.setReal s.fs.nextFile r := by
  have hreal : (s.wrapped r x).real = (s.layers.setReal s.fs.nextFile r).real := by
    funext f
    rw [Layers.setReal_real]
    simp only [CaseFS.real, CaseFS.wrapped, Function.update_apply, CaseFS.layers]
    split <;> rfl
  have hsame : (s.wrapped r x).child = s.layers.child := by
    funext d n
    simp only [CaseFS.child, CaseFS.wrapped, Function.update_apply]
    split
    · next heq =>
        rw [heq, hchild]
        rfl
    · rfl
  unfold CaseFS.layers
  rw [hreal, hsame, show (s.wrapped r x).fs.tree = s.fs.tree from tree_addFile_fresh hw hx]
  rfl

/-- A name that the map does not have is inserted, unless the directory is unlinked. -/
theorem CaseDirectory.insertNew_sound {insert : FileId → Name → Sys (Option FileId)}
    (hins : InsertsFile insert) (h : s.Sound sp) (hd : s.real d = some D) (name : Name)
    (hfree : s.layers.tree.parent d ≠ none → s.layers.child d (normalize name) = none) :
    CaseDirectory.insertNew (IgnoreCaseDirectory.insertNew insert) d name s = some (s, .ok none) ∨
      ∃ s' c, CaseDirectory.insertNew (IgnoreCaseDirectory.insertNew insert) d name s =
        some (s', .ok (some c)) ∧ s'.Sound (Function.update sp c name) ∧ s.MountsFrom s' := by
  obtain ⟨v, hv, rfl, hthis⟩ := thisDirectory_apply hd
  unfold CaseDirectory.insertNew
  by_cases hp : (s.fs.file d).parent = none
  · exact .inl (if_pos hp)
  simp only [if_neg hp]
  rcases hins v.real (normalize name) s.fs with ⟨_, hnone⟩ | ⟨x, hx, hinsert⟩
  · have hback : IgnoreCaseDirectory.insertNew insert d name s = some (s, .ok none) :=
      (bind_of_ok hthis).trans (bind_of_ok (onFiles_apply hnone))
    exact .inl (bind_of_ok hback)
  · -- The backend's file, its wrapper, the entry of the map, and the parent of the wrapper.
    let r := s.fs.nextFile
    let s₁ := s.modifyFS fun fs => fs.insertFile v.real (normalize name) x
    have hlayers₁ : s₁.layers = s.layers.onTree fun t =>
        (t.setEntries v.real (t.entries v.real ++ [(normalize name, r)])).setParent r (some v.real) :=
      s.layers_modifyFS (g := fun fs => fs.insertFile v.real (normalize name) x)
        (u := fun t => (t.setEntries v.real (t.entries v.real ++ [(normalize name, r)])).setParent r
          (some v.real)) (tree_insertFile h.within hx v.real (normalize name))
    have hlt : r < r + 1 := Nat.lt_succ_self r
    have hwithin₁ : s₁.layers.Within s₁.fs.nextFile := by
      rw [hlayers₁]
      exact ((h.within.mono hlt.le).setEntries _ ((h.within.real_lt d _ hd).2.trans hlt)).setParent hlt
    obtain ⟨x', hx', hwrap⟩ := virtualize_apply s₁ r (s₁.fs.file d).backend
    let s₂ := s₁.wrapped r x'
    have hlayers₂ : s₂.layers = s₁.layers.setReal (r + 1) r :=
      CaseFS.layers_wrapped hwithin₁ hx' fun n => h.within.child_none h.paired hlt.le
    have hd₂ : s₂.real d = some v.real := by
      change s₂.layers.real d = _
      rw [hlayers₂, Layers.setReal_real, if_neg (Nat.ne_of_lt ((h.within.real_lt d _ hd).1.trans hlt)),
        hlayers₁]
      exact hd
    let s₃ := s₂.modifyChildren d fun m => m.insert (normalize name) ⟨name, r + 1⟩
    have hlayers₃ := s₂.layers_insertChild hd₂ (normalize name) ⟨name, r + 1⟩
    let s₄ := s₃.modifyFS fun fs => (fs.cacheChild d name (r + 1) .normal).updateMTime d
    have hlayers₄ : s₄.layers = s.layers.inserted d v.real name r (r + 1) := by
      have htree : ((s₃.fs.cacheChild d name (r + 1) .normal).updateMTime d).tree =
          s₃.fs.tree.setParent (r + 1) (some d) := by
        rw [FS.tree_updateMTime, FS.tree_cacheChild_normal]
      have hlast := s₃.layers_modifyFS (u := fun t => t.setParent (r + 1) (some d))
        (g := fun fs => (fs.cacheChild d name (r + 1) .normal).updateMTime d) htree
      rw [hlast, hlayers₃, hlayers₂, hlayers₁]
      rfl
    have hback : IgnoreCaseDirectory.insertNew insert d name s = some (s₃, .ok (some (r + 1))) := by
      refine (bind_of_ok hthis).trans ((bind_of_ok (onFiles_apply hinsert)).trans ?_)
      exact (gets_bind_apply _ _ _).trans (bind_of_ok hwrap)
    refine .inr ⟨s₄, r + 1, bind_of_ok hback,
      .of_layers hlayers₄ (h.paired.inserted h.within hd (hfree hp)) (h.within.inserted hd), ?_⟩
    intro d' n' e he
    rw [hlayers₄] at he
    exact he

/-! ### Mounts -/

/-- A file that no directory holds and no wrapper wraps. -/
structure Layers.Unplaced (L : Layers) (m : FileId) : Prop where
  noChild : L.NoChild m
  noMount : ∀ d n e, L.tree.mount d n = some e → e.file ≠ m
  noEntry : ∀ D n, (n, m) ∉ L.tree.entries D
  unwrapped : ∀ g, L.real g ≠ some m

/-- The directories of `s` are the same in `s'`. -/
structure CaseFS.SameDirectories (s s' : CaseFS) : Prop where
  next_le : s.fs.nextFile ≤ s'.fs.nextFile
  real : ∀ f, f < s.fs.nextFile → s'.layers.real f = s.layers.real f
  parent : ∀ f, f < s.fs.nextFile → s'.layers.tree.parent f = s.layers.tree.parent f
  child : s'.layers.child = s.layers.child
  mount : s'.layers.tree.mount = s.layers.tree.mount

theorem Layers.Within.unplaced {next m : FileId} (hw : L.Within next) (hp : L.Paired sp) (hm : next ≤ m) :
    L.Unplaced m where
  noChild := hw.noChild hp hm
  noMount := hw.noMount hm
  noEntry := hw.no_entry hp hm
  unwrapped := hw.not_real hm

/-- A new file that is not wrapped. -/
theorem CaseFS.Sound.addFile (h : s.Sound sp) (hx : x.Fresh) :
    (s.modifyFS fun fs => fs.addFile x).Sound sp ∧
      (s.modifyFS fun fs => fs.addFile x).layers = s.layers := by
  have hsame : (s.modifyFS fun fs => fs.addFile x).layers = s.layers :=
    s.layers_modifyFS (u := fun t => t) (tree_addFile_fresh h.within hx)
  exact ⟨.of_layers hsame h.paired (h.within.mono (Nat.le_succ _)), hsame⟩

/-- A new wrapper for a new file `r`, which may have become its own parent. -/
theorem CaseFS.Sound.wrapped (h : s.Sound sp) (hx : x.Fresh) (hr : s.layers.Unplaced r)
    (hreal : s.layers.real r = none) (hentries : s.layers.tree.entries r = [])
    (hmounts : ∀ n, s.layers.tree.mount r n = none) (hlt : r < s.fs.nextFile) :
    (s.wrapped r x).Sound sp ∧ (s.wrapped r x).layers = s.layers.setReal s.fs.nextFile r := by
  have hchild : ∀ n, s.layers.child s.fs.nextFile n = none := fun n =>
    h.within.child_none h.paired (Nat.le_refl _)
  have hlayers := CaseFS.layers_wrapped (r := r) h.within hx hchild
  exact ⟨.of_layers hlayers
    (h.paired.wrap h.within (h.within.noChild h.paired (Nat.le_refl _)) hreal hr.unwrapped hentries hchild hmounts
      hr.noMount (Nat.ne_of_lt hlt))
    ((h.within.mono (Nat.le_succ _)).setReal (Nat.lt_succ_self _) (hlt.trans (Nat.lt_succ_self _))), hlayers⟩

/-- A new case-insensitive file or directory of another backend; `p` is what became the
parent of the wrapped file. -/
theorem CaseFS.Sound.wrapNew (h : s.Sound sp) (hx : x.Fresh) (p : Option FileId) (backend : Option Backend) :
    ∃ s', virtualize s.fs.nextFile backend
        (s.modifyFS fun fs => (fs.addFile x).setParent s.fs.nextFile p) =
          some (s', .ok (s.fs.nextFile + 1)) ∧ s'.Sound sp ∧ s'.layers.Unplaced (s.fs.nextFile + 1) ∧
      s.SameDirectories s' ∧ s.fs.nextFile + 1 < s'.fs.nextFile ∧
      s'.layers.real (s.fs.nextFile + 1) = some s.fs.nextFile := by
  let r := s.fs.nextFile
  have hself : r ≤ r := Nat.le_refl r
  have hunplaced := h.within.unplaced h.paired hself
  let s₁ := s.modifyFS fun fs => (fs.addFile x).setParent r p
  have hlayers₁ : s₁.layers = s.layers.onTree fun t => t.setParent r p := by
    have htree : ((s.fs.addFile x).setParent r p).tree = s.fs.tree.setParent r p := by
      rw [FS.tree_setParent, tree_addFile_fresh h.within hx]
    exact s.layers_modifyFS (g := fun fs => (fs.addFile x).setParent r p)
      (u := fun t => t.setParent r p) htree
  have hsound₁ : s₁.Sound sp := .of_layers hlayers₁
    (h.paired.setParent hunplaced.noChild hunplaced.noEntry hunplaced.noMount)
    ((h.within.mono (Nat.le_succ r)).setParent (Nat.lt_succ_self r))
  obtain ⟨x', hx', hwrap⟩ := virtualize_apply s₁ r backend
  have hunplaced₁ : s₁.layers.Unplaced r := by
    rw [hlayers₁]
    exact { hunplaced with }
  obtain ⟨hsound, hlayers⟩ := hsound₁.wrapped hx' hunplaced₁
    (by rw [hlayers₁]; exact h.within.real_none hself)
    (by rw [hlayers₁]; exact h.within.blank_entries r hself)
    (by rw [hlayers₁]; exact fun n => h.within.blank_mount r n hself) (Nat.lt_succ_self r)
  rw [show s₁.fs.nextFile = r + 1 from rfl] at hlayers
  refine ⟨_, hwrap, hsound, ?_, ?_, Nat.lt_succ_self (r + 1), ?_⟩
  · have hnew := hsound₁.within.unplaced hsound₁.paired (Nat.le_refl (r + 1))
    rw [hlayers]
    refine { hnew with unwrapped := ?_ }
    intro g hg
    rw [Layers.setReal_real] at hg
    split at hg
    · exact absurd (Option.some.inj hg) (Nat.ne_of_lt (Nat.lt_succ_self r))
    · exact hnew.unwrapped g hg
  · refine ⟨(Nat.le_succ r).trans (Nat.le_succ _), ?_, ?_, ?_, ?_⟩
    · intro f hf
      rw [hlayers, Layers.setReal_real, if_neg (Nat.ne_of_lt (hf.trans (Nat.lt_succ_self r))), hlayers₁]
      rfl
    · intro f hf
      rw [hlayers, hlayers₁]
      change (s.layers.tree.setParent r p).parent f = _
      rw [Tree.setParent_parent, if_neg (Nat.ne_of_lt hf)]
    · rw [hlayers, hlayers₁]
      rfl
    · rw [hlayers, hlayers₁]
      rfl
  · rw [hlayers, Layers.setReal_real, if_pos rfl]

/-- What can be mounted is new, and not in any directory. -/
theorem NewMount.create_sound (x : NewMount) (h : s.Sound sp) : x.create s = some (s, .ok none) ∨
    ∃ s' m, x.create s = some (s', .ok (some m)) ∧ s'.Sound sp ∧ s'.layers.Unplaced m ∧
      s.SameDirectories s' ∧ m < s'.fs.nextFile := by
  have hplain : ∀ {y : File}, y.Fresh → (s.modifyFS fun fs => fs.addFile y).Sound sp ∧
      (s.modifyFS fun fs => fs.addFile y).layers.Unplaced s.fs.nextFile ∧
      s.SameDirectories (s.modifyFS fun fs => fs.addFile y) := by
    intro y hy
    obtain ⟨hsound, hlayers⟩ := h.addFile hy
    refine ⟨hsound, ?_, ?_⟩
    · rw [hlayers]
      exact h.within.unplaced h.paired (Nat.le_refl _)
    · refine ⟨Nat.le_succ _, ?_, ?_, ?_, ?_⟩
      · exact fun f _ => congrFun (congrArg Layers.real hlayers) f
      · exact fun f _ => congrFun (congrArg (fun L => L.tree.parent) hlayers) f
      · exact congrArg Layers.child hlayers
      · exact congrArg (fun L => L.tree.mount) hlayers
  cases x with
  | dataFile backend mode =>
    have hy : (newDataFile (some backend) mode s.fs.env.now).Fresh := ⟨rfl, rfl, rfl⟩
    obtain ⟨hsound, hm, hsame⟩ := hplain hy
    change onFiles (createFile (some backend) mode) s = _ ∨ _
    cases backend with
    | memory n => exact .inr ⟨_, _, rfl, hsound, hm, hsame, Nat.lt_succ_self _⟩
    | external n =>
      by_cases hok : s.fs.env.createFile (.external n) = true
      · refine .inr ⟨_, _, onFiles_apply ?_, hsound, hm, hsame, Nat.lt_succ_self _⟩
        unfold createFile
        exact if_pos hok
      · exact .inl (onFiles_apply (if_neg hok))
  | directory backend mode =>
    have hy : (newDirectory (some backend) mode s.fs.env.now).Fresh := ⟨rfl, rfl, rfl⟩
    obtain ⟨hsound, hm, hsame⟩ := hplain hy
    change onFiles (createDirectory (some backend) mode) s = _ ∨ _
    cases backend with
    | memory n => exact .inr ⟨_, _, rfl, hsound, hm, hsame, Nat.lt_succ_self _⟩
    | external n =>
      by_cases hok : s.fs.env.createDirectory (.external n) = true
      · refine .inr ⟨_, _, onFiles_apply ?_, hsound, hm, hsame, Nat.lt_succ_self _⟩
        unfold createDirectory
        exact if_pos hok
      · exact .inl (onFiles_apply (if_neg hok))
  | ignoreCaseFile wrapped backend mode =>
    have hy : (newDataFile (some (.memory wrapped)) mode s.fs.env.now).Fresh := ⟨rfl, rfl, rfl⟩
    obtain ⟨s', hrun, hsound, hm, hsame, hlt, _⟩ := h.wrapNew hy none (some backend)
    refine .inr ⟨s', _, ?_, hsound, hm, hsame, hlt⟩
    have hparent : (s.modifyFS fun fs => (fs.addFile (newDataFile (some (.memory wrapped)) mode
        s.fs.env.now)).setParent s.fs.nextFile none) = s.modifyFS fun fs =>
          fs.addFile (newDataFile (some (.memory wrapped)) mode s.fs.env.now) := by
      refine congrArg (fun fs => { s with fs := fs }) (FS.setParent_eq_self _ _ ?_)
      rw [FS.addFile_file, if_pos rfl]
      rfl
    rw [hparent] at hrun
    change (IgnoreCaseBackend.createFile wrapped (some backend) mode) s = _
    refine (bind_of_ok (onFiles_apply (m := createFile (some (.memory wrapped)) mode) rfl)).trans ?_
    exact bind_of_ok hrun
  | ignoreCaseDirectory wrapped backend mode =>
    have hy : (newDirectory (some (.memory wrapped)) mode s.fs.env.now).Fresh := ⟨rfl, rfl, rfl⟩
    obtain ⟨s', hrun, hsound, hm, hsame, hlt, _⟩ := h.wrapNew hy (some s.fs.nextFile) (some backend)
    refine .inr ⟨s', _, ?_, hsound, hm, hsame, hlt⟩
    change (IgnoreCaseBackend.createDirectory wrapped (some backend) mode) s = _
    refine (bind_of_ok (onFiles_apply (m := createDirectory (some (.memory wrapped)) mode) rfl)).trans ?_
    exact (modify_bind_apply _ _ _).trans (bind_of_ok hrun)

/-- A name that is not found in a linked directory is free. -/
theorem Layers.find_eq_none (hp : L.tree.parent d ≠ none) (h : L.find d name = none) :
    L.tree.mount d name = none ∧ L.child d (normalize name) = none := by
  unfold Layers.find at h
  cases hparent : L.tree.parent d with
  | none => exact absurd hparent hp
  | some p =>
    rw [hparent] at h
    simp only [] at h
    split at h
    · cases h
    split at h
    · cases h
    split at h
    · cases h
    next hmount => exact ⟨hmount, Option.map_eq_none_iff.mp h⟩

/-- The mount of a file that no directory holds, at a free name. -/
theorem CaseFS.Sound.mountChild (h : s.Sound sp) {m : FileId} (hm : s.layers.Unplaced m)
    (hlt : m < s.fs.nextFile) (hd : s.real d = some D) (name : Name)
    (hfree : s.layers.tree.parent d ≠ none → s.layers.tree.mount d name = none) :
    ∃ s' b, onFiles (Directory.mountChild d name m) s = some (s', .ok b) ∧
      s'.Sound (Function.update sp m name) ∧
      if s.layers.tree.parent d = none then s' = s
      else s'.layers = s.layers.onTree fun t =>
        (t.setMount d name (some ⟨.mount, m⟩)).setParent m (some d) := by
  by_cases hp : (s.fs.file d).parent = none
  · exact ⟨s, false, onFiles_apply (if_pos hp), ⟨h.paired.spell hm.noChild hm.noMount, h.within⟩,
      (if_pos hp).mpr rfl⟩
  · have hfree := hfree hp
    have hlayers := s.layers_modifyFS (g := fun fs => fs.cacheChild d name m .mount)
      (u := fun t => (t.setMount d name (some ⟨.mount, m⟩)).setParent m (some d))
      (s.fs.tree_cacheChild_mount hfree)
    refine ⟨s.modifyFS fun fs => fs.cacheChild d name m .mount, true, onFiles_apply (if_neg hp),
      ⟨?_, ?_⟩, (if_neg hp).mpr hlayers⟩
    · rw [hlayers]
      have hparent := h.paired.setParent (p := some d) hm.noChild hm.noEntry hm.noMount
      refine hparent.mount hfree hm.noChild hm.noMount hm.unwrapped ?_ ?_
      · change (s.layers.tree.setParent m (some d)).parent m = some d
        rw [Tree.setParent_parent, if_pos rfl]
      · intro g hg
        have hplain := h.paired.real_plain g d hg
        rw [show s.layers.real d = some D from hd] at hplain
        cases hplain
    · rw [hlayers]
      have hfile : ∀ e : DCacheEntry, some ⟨DCacheKind.mount, m⟩ = some e → e.file < s.fs.nextFile := by
        rintro _ ⟨⟩
        exact hlt
      exact (h.within.setMount (h.within.real_lt d D hd).1 hfile).setParent hlt

/-! ### Removal -/

/-- The layers after the removal of the child `i`, which wraps `r`. -/
def Layers.removed (L : Layers) (d D : FileId) (n : Name) (c r : FileId) : Layers :=
  (((L.onTree fun t => (t.setParent r none).setEntries D (dropFirst Prod.fst n (t.entries D))).onTree
    fun t => t.setParent c none).setChild d n none)

theorem Layers.Paired.removed (h : L.Paired sp) (hd : L.real d = some D) (hi : L.child d n = some i)
    (hr : L.real i.child = some r) :
    (L.removed d D n i.child r).Paired sp ∧ (L.removed d D n i.child r).NoChild i.child := by
  have hout := h.remove (n := n) hd (dropFirst_sublist Prod.fst n (L.tree.entries D)) fun m g => by
    rw [mem_dropFirst (h.names_nodup D)]
  have hchild : ∀ d' n' i', ((L.onTree fun t => t.setEntries D (dropFirst Prod.fst n
      (L.tree.entries D))).setChild d n none).child d' n' = some i' → i'.child ≠ i.child := by
    intro d' n' i' hi' heq
    rw [Layers.setChild_child] at hi'
    split at hi'
    · cases hi'
    · next hne => exact hne (h.child_unique hi' hi heq)
  have hfirst := hout.setParent (f := r) (p := none) (hout.noChild_of_real hr)
    (hout.noEntry_of_noChild hchild hr) fun d' n' e he heq =>
      h.mount_unwrapped d' n' e he i.child (heq ▸ hr)
  have hsecond := hfirst.setParent (f := i.child) (p := none) hchild (hout.noEntry_of_wrapper hr)
    fun d' n' e he heq => h.mount_not_child d' n' e he d n i hi heq.symm
  exact ⟨hsecond, hchild⟩

theorem Layers.Within.removed {next : FileId} (hw : L.Within next) {c : FileId} (hd : L.real d = some D)
    (hc : L.real c = some r) : (L.removed d D n c r).Within next := by
  have hlt := hw.real_lt c r hc
  have hout := ((hw.setParent (p := none) hlt.2).setEntries (dropFirst Prod.fst n (L.tree.entries D))
    (hw.real_lt d D hd).2).setParent (p := none) hlt.1
  exact hout.setChild none

theorem memoryRemoveChild_nextFile (fs : FS) (D : FileId) (n : Name) :
    (fs.memoryRemoveChild D n).nextFile = fs.nextFile := by
  unfold FS.memoryRemoveChild
  cases fs.memoryGetChild D n with
  | none => rfl
  | some c => rfl

theorem tree_removeEntry (h : L.Paired sp) (hd : L.real d = some D) (hi : L.child d n = some i)
    (hr : L.real i.child = some r) :
    L.tree.removeEntry D n =
      (L.tree.setParent r none).setEntries D (dropFirst Prod.fst n (L.tree.entries D)) := by
  have hlook := h.lookup_entries (n := n) hd
  rw [hi, Option.bind_some, hr] at hlook
  unfold Tree.removeEntry
  rw [hlook]

/-- The removal of a child of the map: of its entry in the wrapped directory, and of its parent. -/
theorem CaseDirectory.removeChild_apply (h : s.Sound sp) (hd : s.real d = some D)
    (hmount : s.layers.tree.mount d name = none) (hi : s.layers.child d (normalize name) = some i) :
    ∃ s' r, CaseDirectory.removeChild d name s = some (s', .ok ()) ∧ s.layers.real i.child = some r ∧
      s'.layers = s.layers.removed d D (normalize name) i.child r ∧ s'.fs.nextFile = s.fs.nextFile := by
  obtain ⟨v, hv, rfl, hthis⟩ := thisDirectory_apply hd
  obtain ⟨_, r, hd', hr, _⟩ := h.paired.child_wrapped d _ i hi
  obtain rfl : v.real = _ := Option.some.inj (hd.symm.trans hd')
  -- The backend's removal, the parent of the wrapper, and the entry of the map.
  let s₁ := s.modifyFS fun fs => (fs.memoryRemoveChild v.real (normalize name)).updateMTime v.real
  have hreal : Directory.removeChild v.real (normalize name) s.fs = some (s₁.fs, .ok ()) := by
    have hnone : (s.fs.file v.real).dcache.lookup (normalize name) = none :=
      h.paired.real_mount d _ _ hd
    unfold Directory.removeChild
    rw [hnone]
    rfl
  let s₂ := s₁.modifyFS fun fs => fs.setParent i.child none
  let s₃ := s₂.modifyChildren d fun m => m.erase (normalize name)
  let s₄ := s₃.modifyFS fun fs => fs.updateMTime d
  have hback : IgnoreCaseDirectory.removeChild d name s = some (s₃, .ok ()) := by
    refine (bind_of_ok hthis).trans ((bind_of_ok (onFiles_apply hreal)).trans ?_)
    rw [← child_eq_lookup hv, show s.layers.child d (normalize name) = some i from hi]
    rfl
  have hlayers : s₄.layers = s.layers.removed d v.real (normalize name) i.child r := by
    have h₁ := s.layers_modifyFS (u := fun t => (t.setParent r none).setEntries v.real
        (dropFirst Prod.fst (normalize name) (t.entries v.real)))
      (g := fun fs => (fs.memoryRemoveChild v.real (normalize name)).updateMTime v.real) (by
        rw [FS.tree_updateMTime, FS.tree_memoryRemoveChild]
        exact tree_removeEntry h.paired hd hi hr)
    have h₂ := s₁.layers_modifyFS (u := fun t => t.setParent i.child none)
      (g := fun fs => fs.setParent i.child none) (FS.tree_setParent _ _ _)
    have h₃ := s₂.layers_eraseChild (d := d) (D := v.real) hd (normalize name)
    have h₄ := s₃.layers_modifyFS (u := fun t => t) (g := fun fs => fs.updateMTime d)
      (FS.tree_updateMTime _ _)
    rw [h₄, h₃, h₂, h₁]
    rfl
  refine ⟨s₄, r, ?_, hr, hlayers, memoryRemoveChild_nextFile _ _ _⟩
  unfold CaseDirectory.removeChild
  rw [show (s.fs.file d).dcache.lookup name = none from hmount]
  exact bind_of_ok hback

/-- A name that is found is removed. -/
theorem CaseDirectory.removeChild_sound (h : s.Sound sp) (hd : s.real d = some D) (hdot : name ≠ dot)
    (hdots : name ≠ dotDot) (hfind : s.layers.find d name ≠ none) :
    ∃ s', CaseDirectory.removeChild d name s = some (s', .ok ()) ∧ s'.Sound sp ∧ s.MountsFrom s' := by
  cases he : (s.fs.file d).dcache.lookup name with
  | some e =>
    obtain ⟨kind, m⟩ := e
    obtain rfl : kind = .mount := h.paired.mount_kind d name _ he
    have hlayers := s.layers_modifyFS (g := fun fs => fs.dcacheErase d name)
      (u := fun t => t.setMount d name none) (s.fs.tree_dcacheErase d name)
    refine ⟨s.modifyFS fun fs => fs.dcacheErase d name, ?_, .of_layers hlayers h.paired.unmount
      (h.within.setMount (h.within.real_lt d _ hd).1 (by rintro _ ⟨⟩)), ?_⟩
    · unfold CaseDirectory.removeChild
      rw [he]
    · intro d' n' e he
      rw [hlayers] at he
      change (s.layers.tree.setMount d name none).mount d' n' = some e at he
      rw [Tree.setMount_mount] at he
      split at he
      · cases he
      · exact he
  | none =>
    have hmount : s.layers.tree.mount d name = none := he
    have hchild : ∃ i, s.layers.child d (normalize name) = some i := by
      unfold Layers.find at hfind
      cases hp : s.layers.tree.parent d with
      | none => simp [hp] at hfind
      | some p =>
        simp only [hp, if_neg hdot, if_neg hdots, hmount] at hfind
        exact Option.ne_none_iff_exists'.mp fun hnone => hfind (by rw [hnone]; rfl)
    obtain ⟨i, hi⟩ := hchild
    obtain ⟨s', r, hrun, hr, hlayers, hnext⟩ := CaseDirectory.removeChild_apply h hd hmount hi
    refine ⟨s', hrun, .of_layers hlayers (h.paired.removed hd hi hr).1 (hnext ▸ h.within.removed hd hr), ?_⟩
    intro d' n' e he
    rw [hlayers] at he
    exact he

/-! ### Moves -/

/-- The layers after the move of the child `f`, which wraps `r`, from the name `k` of `p`
to a name of `d`; `P` and `D` are the wrapped directories. -/
def Layers.moved (L : Layers) (p P : FileId) (k : Name) (d D : FileId) (name : Name) (f r : FileId) :
    Layers :=
  let out := L.setChild p k none
  let tree := (L.tree.moveEntry D (normalize name) r P).setParent r (some D)
  let unlinked := match out.child d (normalize name) with
    | none => tree
    | some o => tree.setParent o.child none
  ({ out with tree := unlinked.setParent f (some d) } : Layers).setChild d (normalize name) (some ⟨name, f⟩)

theorem Layers.moved_mount (L : Layers) (p P : FileId) (k : Name) (d D : FileId) (name : Name)
    (f r : FileId) : (L.moved p P k d D name f r).tree.mount = L.tree.mount := by
  unfold Layers.moved
  cases ho : (L.setChild p k none).child d (normalize name) with
  | none =>
    simp only [ho]
    exact Tree.removeEntry_mount _ _ _
  | some o =>
    simp only [ho]
    exact Tree.removeEntry_mount _ _ _

theorem Tree.setParent_comm (t : Tree) {a b : FileId} (hne : a ≠ b) (p q : Option FileId) :
    (t.setParent a p).setParent b q = (t.setParent b q).setParent a p := by
  unfold Tree.setParent
  rw [Function.update_comm hne]

theorem Layers.setChild_setChild (L : Layers) (d : FileId) (n : Name) (i j : Option ChildInfo) :
    (L.setChild d n i).setChild d n j = L.setChild d n j := by
  simp [Layers.setChild]

/-- The child leaves the name it has. -/
theorem Layers.Paired.taken (h : L.Paired sp) {p P : FileId} (hp : L.real p = some P)
    (hi : L.child p k = some i) (hr : L.real i.child = some r) :
    ((L.onTree fun t => t.setEntries P (dropFirst Prod.snd r (t.entries P))).setChild p k none).Paired sp ∧
      (L.setChild p k none).NoChild i.child := by
  refine ⟨h.remove hp (dropFirst_sublist Prod.snd r (L.tree.entries P)) ?_, ?_⟩
  · intro m g
    rw [mem_dropFirst (h.files_nodup P)]
    refine and_congr_right fun hmem => not_congr ⟨?_, ?_⟩
    · rintro rfl
      obtain ⟨i', hi', hr'⟩ := (h.entries_iff p P m g hp).mp hmem
      exact (h.child_unique hi' hi (h.real_inj _ _ _ hr' hr)).2
    · rintro rfl
      obtain ⟨i', hi', hr'⟩ := (h.entries_iff p P m g hp).mp hmem
      rw [hi] at hi'
      cases hi'
      exact Option.some.inj (hr'.symm.trans hr)
  · intro d' n' i' hi' heq
    rw [Layers.setChild_child] at hi'
    split at hi'
    · cases hi'
    · next hne => exact hne (h.child_unique hi' hi heq)

/-- A child of a case-insensitive directory is moved. -/
theorem Layers.Paired.moved (h : L.Paired sp) {p P : FileId} (hp : L.real p = some P)
    (hi : L.child p k = some i) (hr : L.real i.child = some r) (hd : L.real d = some D) :
    (L.moved p P k d D name i.child r).Paired (Function.update sp i.child name) := by
  obtain ⟨htaken, hno⟩ := h.taken hp hi hr
  let L₁ := (L.onTree fun t => t.setEntries P (dropFirst Prod.snd r (t.entries P))).setChild p k none
  have hmount : ∀ d' n' e, L.tree.mount d' n' = some e → e.file ≠ i.child := by
    intro d' n' e he heq
    exact h.mount_not_child d' n' e he p k i hi heq.symm
  have hmount' : ∀ d' n' e, L.tree.mount d' n' = some e → e.file ≠ r := by
    intro d' n' e he heq
    exact h.mount_unwrapped d' n' e he i.child (heq ▸ hr)
  have hplain : L.real r = none := h.real_plain _ _ hr
  -- The child that the move replaces, if there is one, has left as well.
  have hcleared : ∃ L₂ : Layers, L₂.Paired sp ∧ L₂.real = L.real ∧ L₂.tree.mount = L.tree.mount ∧
      L₂.child d (normalize name) = none ∧ L₂.NoChild i.child ∧
      L.moved p P k d D name i.child r = (((L₂.onTree fun t => t.setParent r (some D)).onTree
        fun t => t.setParent i.child (some d)).onTree fun t =>
          t.setEntries D (t.entries D ++ [(normalize name, r)])).setChild d (normalize name)
            (some ⟨name, i.child⟩) := by
    cases ho : L₁.child d (normalize name) with
    | none =>
      refine ⟨L₁, htaken, rfl, rfl, ho, hno, ?_⟩
      have hlook : (L₁.tree.entries D).lookup (normalize name) = none := by
        rw [htaken.lookup_entries hd, ho]
        rfl
      have hremove : L₁.tree.removeEntry D (normalize name) = L₁.tree := by
        unfold Tree.removeEntry
        rw [hlook]
      have hout : (L.setChild p k none).child d (normalize name) = none := ho
      unfold Layers.moved Tree.moveEntry
      simp only [hout]
      rw [show (L.tree.setEntries P (dropFirst Prod.snd r (L.tree.entries P))).removeEntry D
        (normalize name) = L₁.tree from hremove]
      rfl
    | some o =>
      obtain ⟨D', ro, hd', hro, _⟩ := htaken.child_wrapped d _ o ho
      obtain rfl : D = D' := Option.some.inj (hd.symm.trans hd')
      obtain ⟨hremoved, hgone⟩ := htaken.removed hd ho hro
      have hne : o.child ≠ r := by
        intro heq
        rw [heq, show L₁.real r = none from hplain] at hro
        cases hro
      refine ⟨L₁.removed d D (normalize name) o.child ro, hremoved, rfl, rfl, ?_, ?_, ?_⟩
      · unfold Layers.removed
        rw [Layers.setChild_child, if_pos ⟨rfl, rfl⟩]
      · intro d' n' i' hi'
        unfold Layers.removed at hi'
        rw [Layers.setChild_child] at hi'
        split at hi'
        · cases hi'
        · exact hno d' n' i' hi'
      · have hout : (L.setChild p k none).child d (normalize name) = some o := ho
        unfold Layers.moved Tree.moveEntry
        simp only [hout]
        rw [show (L.tree.setEntries P (dropFirst Prod.snd r (L.tree.entries P))).removeEntry D
          (normalize name) = (L₁.tree.setParent ro none).setEntries D
            (dropFirst Prod.fst (normalize name) (L₁.tree.entries D)) from
              tree_removeEntry htaken hd ho hro]
        let T := (L₁.tree.setParent ro none).setEntries D
          (dropFirst Prod.fst (normalize name) (L₁.tree.entries D))
        have htree : ((T.setEntries D (T.entries D ++ [(normalize name, r)])).setParent r
            (some D)).setParent o.child none =
            ((T.setParent o.child none).setParent r (some D)).setEntries D
              (T.entries D ++ [(normalize name, r)]) :=
          (Tree.setParent_comm _ hne.symm _ _).trans rfl
        refine Eq.trans ?_ (Layers.setChild_setChild ((L₁.onTree fun _ =>
          (((T.setParent o.child none).setParent r (some D)).setParent i.child (some d)).setEntries D
            (T.entries D ++ [(normalize name, r)]))) d (normalize name) none
              (some ⟨name, i.child⟩)).symm
        exact congrArg (fun t : Tree => ({ L₁ with tree := t.setParent i.child (some d) } :
          Layers).setChild d (normalize name) (some ⟨name, i.child⟩)) htree
  obtain ⟨L₂, hpaired, hreal, hmounts, hfree, hgone, heq⟩ := hcleared
  rw [heq]
  have hentry := hpaired.noEntry_of_noChild hgone (by rw [hreal]; exact hr)
  have hfirst := hpaired.setParent (f := r) (p := some D)
    (hpaired.noChild_of_real (f := i.child) (by rw [hreal]; exact hr)) hentry (by rw [hmounts]; exact hmount')
  have hsecond := hfirst.setParent (f := i.child) (p := some d) hgone ?_ (by
    change ∀ d' n' e, L₂.tree.mount d' n' = some e → _
    rw [hmounts]
    exact hmount)
  · refine hsecond.add name (f := i.child) (r := r) ?_ ?_ hfree hgone ?_ ?_ ?_
    · exact (congrFun hreal d).trans hd
    · exact (congrFun hreal i.child).trans hr
    · change ∀ d' n' e, L₂.tree.mount d' n' = some e → _
      rw [hmounts]
      exact hmount
    · change ((L₂.tree.setParent r (some D)).setParent i.child (some d)).parent i.child = some d
      rw [Tree.setParent_parent, if_pos rfl]
    · change ((L₂.tree.setParent r (some D)).setParent i.child (some d)).parent r = some D
      rw [Tree.setParent_parent, if_neg (h.ne_of_real hr).symm, Tree.setParent_parent, if_pos rfl]
  · exact hpaired.noEntry_of_wrapper ((congrFun hreal i.child).trans hr)

theorem Tree.removeEntry_parent_none {D g : FileId} (h : t.parent g = none) :
    (t.removeEntry D n).parent g = none := by
  unfold Tree.removeEntry
  split
  · exact h
  · rw [Tree.setEntries_parent, Tree.setParent_parent]
    split
    · rfl
    · exact h

theorem Tree.removeEntry_entries_ne {D g : FileId} (h : g ≠ D) :
    (t.removeEntry D n).entries g = t.entries g := by
  unfold Tree.removeEntry
  split
  · rfl
  · rw [Tree.setEntries_entries, if_neg h, Tree.setParent_entries]

/-- A file that no directory holds keeps its parent when another file moves. -/
theorem Tree.moveEntry_parent {P D f : FileId} (h : ∀ D n, (n, f) ∉ t.entries D) :
    (t.moveEntry D n r P).parent f = t.parent f := by
  unfold Tree.moveEntry Tree.removeEntry
  simp only [Tree.setEntries_parent]
  split
  · rfl
  · next c hc =>
      rw [Tree.setEntries_parent, Tree.setParent_parent, if_neg]
      · rfl
      rintro rfl
      have hmem := mem_of_lookup hc
      rw [Tree.setEntries_entries] at hmem
      split at hmem
      · exact h P n ((dropFirst_sublist Prod.snd r _).mem hmem)
      · exact h D n hmem

theorem Layers.Within.moved {next : FileId} (hw : L.Within next) (h : L.Paired sp) {p P c : FileId}
    (hp : L.real p = some P) (hr : L.real c = some r) (hd : L.real d = some D) :
    (L.moved p P k d D name c r).Within next := by
  have hc := hw.real_lt c r hr
  have hP := (hw.real_lt p P hp).2
  have hD := (hw.real_lt d D hd).2
  let t := L.tree.moveEntry D (normalize name) r P
  have hmoved : ({ L with tree := t } : Layers).Within next := by
    refine { hw with mount_lt := ?_, blank_parent := ?_, blank_entries := ?_, blank_mount := ?_ }
    · intro d' n' e he
      change (Tree.removeEntry _ _ _).mount d' n' = some e at he
      rw [Tree.removeEntry_mount] at he
      exact hw.mount_lt d' n' e he
    · intro g hg
      exact Tree.removeEntry_parent_none (hw.blank_parent g hg)
    · intro g hg
      have hgD : g ≠ D := (Nat.ne_of_lt (hD.trans_le hg)).symm
      have hgP : g ≠ P := (Nat.ne_of_lt (hP.trans_le hg)).symm
      change (Tree.setEntries _ D _).entries g = []
      rw [Tree.setEntries_entries, if_neg hgD, Tree.removeEntry_entries_ne hgD, Tree.setEntries_entries,
        if_neg hgP, hw.blank_entries g hg]
    · intro g n' hg
      change (Tree.removeEntry _ _ _).mount g n' = none
      rw [Tree.removeEntry_mount]
      exact hw.blank_mount g n' hg
  have hreal := hmoved.setParent (p := some D) hc.2
  unfold Layers.moved
  cases ho : (L.setChild p k none).child d (normalize name) with
  | none =>
    simp only [ho]
    have hlast := hreal.setParent (p := some d) hc.1
    exact { hlast with }
  | some o =>
    simp only [ho]
    have hold : L.child d (normalize name) = some o := by
      rw [Layers.setChild_child] at ho
      split at ho
      · cases ho
      · exact ho
    obtain ⟨_, _, _, ho', _⟩ := h.child_wrapped d _ o hold
    have hlast := (hreal.setParent (p := none) (hw.real_lt _ _ ho').1).setParent (p := some d) hc.1
    exact { hlast with }

/-- The entry that `eraseChild` finds is the only one of the file. -/
theorem IgnoreCaseDirectory.eraseChild_apply {p P : FileId} (hp : s.real p = some P)
    (hi : s.layers.child p k = some i)
    (hunique : ∀ n i', s.layers.child p n = some i' → i'.child = i.child → n = k) :
    IgnoreCaseDirectory.eraseChild p i.child s =
      some (s.modifyChildren p fun m => m.erase k, .ok ()) := by
  obtain ⟨u, hu, _, hthis⟩ := thisDirectory_apply hp
  refine (bind_of_ok hthis).trans ?_
  have hmem : (⟨k, i⟩ : Sigma fun _ : Name => ChildInfo) ∈ u.children.entries := by
    rw [← AList.mem_lookup_iff, ← child_eq_lookup hu]
    exact hi
  cases hfirst : u.children.entries.find? fun e => e.2.child = i.child with
  | none =>
    have hnot := List.find?_eq_none.mp hfirst _ hmem
    simp at hnot
  | some e =>
    have hlook := AList.mem_lookup_iff.mpr (List.mem_of_find?_eq_some hfirst)
    have hsame : e.2.child = i.child := by simpa using List.find?_some hfirst
    obtain rfl := hunique e.1 e.2 ((child_eq_lookup hu e.1).trans hlook) hsame
    rfl

/-- A child that is no symbolic link is moved, unless the wrapped directory is unlinked. -/
theorem CaseDirectory.insertMove_sound (h : s.Sound sp) (hd : s.real d = some D) (name : Name) {p : FileId}
    (hi : s.layers.child p k = some i) (hkind : (s.fs.file i.child).kind ≠ .symlink) :
    CaseDirectory.insertMove d name i.child s = some (s, .error .EPERM) ∨
      ∃ s', CaseDirectory.insertMove d name i.child s = some (s', .ok ()) ∧
        s'.Sound (Function.update sp i.child name) ∧ s.MountsFrom s' := by
  obtain ⟨P, r, hp, hr, hrP⟩ := h.paired.child_wrapped p k i hi
  have hparent := h.paired.child_parent p k i hi
  obtain ⟨v, hv, rfl, hthis⟩ := thisDirectory_apply hd
  obtain ⟨w, hw, rfl, _⟩ := thisDirectory_apply hr
  unfold CaseDirectory.insertMove
  by_cases hpd : (s.fs.file d).parent = none
  · exact .inl (if_pos hpd)
  rw [show (s.fs.file i.child).parent = some p from hparent]
  simp only [if_neg hpd]
  have hfind : s.fs.findInDCache p i.child = none := by
    cases hfind : s.fs.findInDCache p i.child with
    | none => rfl
    | some e =>
      obtain ⟨he, hfile⟩ := FS.findInDCache_some hfind
      exact absurd hfile.symm (h.paired.mount_not_child _ _ _ he p k i hi)
  rw [hfind]
  have hdevirtualize : devirtualize i.child s = some (s, .ok w.real) := by
    unfold devirtualize
    rw [hw]
    cases hk : (s.fs.file i.child).kind with
    | dataFile => rfl
    | directory => rfl
    | symlink => exact absurd hk hkind
  by_cases hpD : (s.fs.file v.real).parent = none
  · -- The backend refuses the move, and nothing has happened.
    have hreal : Directory.insertMove v.real (normalize name) w.real s.fs =
        some (s.fs, .error .EPERM) := if_pos hpD
    have hback : IgnoreCaseDirectory.insertMove d name i.child s = some (s, .error .EPERM) := by
      refine (bind_of_ok hthis).trans ((bind_of_ok hdevirtualize).trans ?_)
      exact bind_of_error (onFiles_apply hreal)
    exact .inl (bind_of_error hback)
  -- The backend's move.
  let s₁ := s.modifyFS fun fs => (((fs.memoryInsertMove v.real (normalize name) w.real P).setParent
    w.real (some v.real)).updateMTime P).updateMTime v.real
  have hreal : Directory.insertMove v.real (normalize name) w.real s.fs = some (s₁.fs, .ok ()) := by
    have hnone : s.fs.findInDCache P w.real = none := by
      cases hfind : s.fs.findInDCache P w.real with
      | none => rfl
      | some e =>
        have he := (FS.findInDCache_some hfind).1
        rw [show s.fs.tree.mount P e.1 = none from h.paired.real_mount p P _ hp] at he
        cases he
    rw [insertMove_eq (b := normalize name) hpD hrP, hnone]
    rfl
  have hlayers₁ : s₁.layers = s.layers.onTree fun t =>
      (t.moveEntry v.real (normalize name) w.real P).setParent w.real (some v.real) := by
    refine s.layers_modifyFS (g := fun fs => (((fs.memoryInsertMove v.real (normalize name) w.real
      P).setParent w.real (some v.real)).updateMTime P).updateMTime v.real) (u := fun t =>
        (t.moveEntry v.real (normalize name) w.real P).setParent w.real (some v.real)) ?_
    rw [FS.tree_updateMTime, FS.tree_updateMTime, FS.tree_setParent, FS.tree_memoryInsertMove]
  have hparent₁ : (s₁.fs.file i.child).parent = some p := by
    change s₁.layers.tree.parent i.child = some p
    rw [hlayers₁]
    change ((s.layers.tree.moveEntry v.real (normalize name) w.real P).setParent w.real
      (some v.real)).parent i.child = some p
    rw [Tree.setParent_parent, if_neg (h.paired.ne_of_real hr),
      Tree.moveEntry_parent (h.paired.noEntry_of_wrapper hr)]
    exact hparent
  -- The entry in the map of the old parent.
  let s₂ := s₁.modifyChildren p fun m => m.erase k
  have hlayers₂ := s₁.layers_eraseChild (d := p) (D := P) hp k
  have herase : IgnoreCaseDirectory.eraseChild p i.child s₁ = some (s₂, .ok ()) :=
    IgnoreCaseDirectory.eraseChild_apply (s := s₁) hp hi fun n i' hi' heq =>
      (h.paired.child_unique hi' hi heq).2
  -- The entry in the map of the directory, and the file it replaces.
  have hd₂ : s₂.real d = some v.real := (congrFun (s₁.real_modifyChildren _) d).trans hd
  obtain ⟨u, hu, _, hthis₂⟩ := thisDirectory_apply hd₂
  let s₃ := match s₂.layers.child d (normalize name) with
    | none => s₂
    | some o => s₂.modifyFS fun fs => fs.setParent o.child none
  let s₄ := s₃.modifyChildren d fun m => m.insert (normalize name) ⟨name, i.child⟩
  have hback : IgnoreCaseDirectory.insertMove d name i.child s = some (s₄, .ok ()) := by
    refine (bind_of_ok hthis).trans ((bind_of_ok hdevirtualize).trans ?_)
    refine (bind_of_ok (onFiles_apply hreal)).trans ?_
    refine (bind_of_ok (onFiles_apply (m := getParent i.child) rfl)).trans ?_
    simp only [hparent₁]
    refine (bind_of_ok herase).trans ((bind_of_ok hthis₂).trans ?_)
    rw [← child_eq_lookup hu]
    simp only [s₄, s₃]
    cases s₂.layers.child d (normalize name) with
    | none => rfl
    | some o => rfl
  let s₅ := s₄.modifyFS fun fs => ((fs.setParent i.child (some d)).updateMTime p).updateMTime d
  have hlayers : s₅.layers = s.layers.moved p P k d v.real name i.child w.real := by
    have h₅ := s₄.layers_modifyFS (u := fun t => t.setParent i.child (some d))
      (g := fun fs => ((fs.setParent i.child (some d)).updateMTime p).updateMTime d)
      (by rw [FS.tree_updateMTime, FS.tree_updateMTime, FS.tree_setParent])
    have hout : s₂.layers.child d (normalize name) =
        (s.layers.setChild p k none).child d (normalize name) := by
      rw [hlayers₂, hlayers₁]
      rfl
    unfold Layers.moved
    rw [h₅]
    simp only [s₄, s₃, ← hout]
    cases s₂.layers.child d (normalize name) with
    | none =>
      simp only []
      rw [s₂.layers_insertChild hd₂, hlayers₂, hlayers₁]
      rfl
    | some o =>
      simp only []
      have h₃ := s₂.layers_modifyFS (u := fun t => t.setParent o.child none)
        (g := fun fs => fs.setParent o.child none) (FS.tree_setParent _ _ _)
      rw [CaseFS.layers_insertChild (s₂.modifyFS _) hd₂, h₃, hlayers₂, hlayers₁]
      rfl
  have hnext : s₅.fs.nextFile = s.fs.nextFile := by
    change s₃.fs.nextFile = _
    simp only [s₃]
    cases s₂.layers.child d (normalize name) with
    | none => exact FS.nextFile_memoryInsertMove _ _ _ _ _
    | some o => exact FS.nextFile_memoryInsertMove _ _ _ _ _
  refine .inr ⟨s₅, bind_of_ok hback, .of_layers hlayers (h.paired.moved hp hi hr hd)
    (hnext ▸ h.within.moved h.paired hp hr hd), ?_⟩
  intro d' n' e he
  rw [hlayers, Layers.moved_mount] at he
  exact he

end Operations

end WasmFS
