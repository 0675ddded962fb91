-- SUMMARY: The directory operations on sound states: each keeps the state sound and edits the tree in its own way.
import Emscripten.WasmFS.Accounting

/-!
# Edits

An edit changes who lists whom. It leaves the descriptor table, the kinds of the files
and the working directory alone. Each operation of `Directory` that changes the tree is
an edit, and on a sound state its effect on the tree is one of a few.
-/

namespace WasmFS

open Assoc

variable {e : DCacheEntry} {d : FileId} {a : Name} {t : Tree}

namespace Tree

/-! ## Addresses and leaves -/

/-- All addresses are below `next`, and only what `dir` allows lists anything. -/
structure Fits (t : Tree) (next : FileId) (dir : FileId → Prop) : Prop where
  within : t.Within next
  leaf : ∀ f, ¬ dir f → t.Empty f

section Fits

variable {t : Tree} {next : FileId} {dir : FileId → Prop}

theorem Fits.setParent (h : t.Fits next dir) {f : FileId} {p : Option FileId}
    (hp : ∀ q, p = some q → q < next ∧ f < next) : (t.setParent f p).Fits next dir := by
  refine ⟨⟨h.within.root_lt, ?_, h.within.mount_lt, ?_, h.within.blank_entries,
    h.within.blank_mount⟩, h.leaf⟩
  · intro g q hq
    rw [setParent_parent] at hq
    split at hq
    · exact (hp q hq).1
    · exact h.within.parent_lt g q hq
  · intro g hg
    rw [setParent_parent]
    split
    · next heq =>
        cases hpq : p with
        | none => rfl
        | some q => exact absurd (hp q hpq).2 (Nat.not_lt.mpr (heq ▸ hg))
    · exact h.within.blank_parent g hg

theorem Fits.setEntries (h : t.Fits next dir) {es : List (Name × FileId)} (hd : d < next) (hdir : dir d) :
    (t.setEntries d es).Fits next dir := by
  refine ⟨⟨h.within.root_lt, h.within.parent_lt, h.within.mount_lt, h.within.blank_parent, ?_,
    h.within.blank_mount⟩, ?_⟩
  · intro f hf
    have hne : f ≠ d := Nat.ne_of_gt (Nat.lt_of_lt_of_le hd hf)
    rw [setEntries_entries, if_neg hne]
    exact h.within.blank_entries f hf
  · intro f hf
    refine ⟨?_, (h.leaf f hf).2⟩
    have hne : f ≠ d := by
      rintro rfl
      exact hf hdir
    rw [setEntries_entries, if_neg hne]
    exact (h.leaf f hf).1

/-- Entries may go away anywhere. -/
theorem Fits.dropEntries (h : t.Fits next dir) {es : List (Name × FileId)} (hes : es.Sublist (t.entries d)) :
    (t.setEntries d es).Fits next dir := by
  have hempty : ∀ f, t.entries f = [] → (t.setEntries d es).entries f = [] := by
    intro f hf
    rw [setEntries_entries]
    split
    · next heq =>
        rw [← heq, hf] at hes
        exact List.sublist_nil.mp hes
    · exact hf
  refine ⟨⟨h.within.root_lt, h.within.parent_lt, h.within.mount_lt, h.within.blank_parent, ?_,
    h.within.blank_mount⟩, ?_⟩
  · intro f hf
    exact hempty f (h.within.blank_entries f hf)
  · intro f hf
    exact ⟨hempty f (h.leaf f hf).1, (h.leaf f hf).2⟩

theorem Fits.setMount (h : t.Fits next dir) {n : Name} {e : Option DCacheEntry}
    (he : ∀ x, e = some x → d < next ∧ dir d ∧ x.file < next) : (t.setMount d n e).Fits next dir := by
  have hempty : ∀ f, (∀ x, e = some x → f ≠ d) → (∀ m, t.mount f m = none) →
      ∀ m, (t.setMount d n e).mount f m = none := by
    intro f hne hf m
    rw [setMount_mount]
    split
    · next heq =>
        cases hx : e with
        | none => rfl
        | some x => exact absurd heq.1 (hne x hx)
    · exact hf m
  refine ⟨⟨h.within.root_lt, h.within.parent_lt, ?_, h.within.blank_parent, h.within.blank_entries,
    ?_⟩, ?_⟩
  · intro f m x hx
    rw [setMount_mount] at hx
    split at hx
    · exact (he x hx).2.2
    · exact h.within.mount_lt f m x hx
  · intro f m hf
    refine hempty f ?_ (fun m => h.within.blank_mount f m hf) m
    rintro x hx rfl
    exact Nat.not_lt.mpr hf (he x hx).1
  · intro f hf
    refine ⟨(h.leaf f hf).1, hempty f ?_ (h.leaf f hf).2⟩
    rintro x hx rfl
    exact hf (he x hx).2.1

theorem Fits.removeEntry (h : t.Fits next dir) (d : FileId) (n : Name) :
    (t.removeEntry d n).Fits next dir := by
  unfold Tree.removeEntry
  split
  · exact h
  · next c _ =>
      refine Fits.dropEntries (h.setParent (p := none) (fun q hq => by cases hq)) ?_
      exact dropFirst_sublist Prod.fst n (t.entries d)

theorem Fits.moveEntry (h : t.Fits next dir) {f : FileId} (n : Name) (oldParent : FileId) (hd : d < next)
    (hdir : dir d) : (t.moveEntry d n f oldParent).Fits next dir :=
  Fits.setEntries ((h.dropEntries (dropFirst_sublist Prod.snd f _)).removeEntry d n) hd hdir

theorem Fits.moveMount (h : t.Fits next dir) {oldParent : FileId} (n : Name) (hd : d < next) (hdir : dir d)
    (he : e.file < next) : (t.moveMount oldParent a e d n).Fits next dir := by
  have hdrop := h.setMount (d := oldParent) (n := a) (e := none) (fun x hx => by cases hx)
  have hput : ∀ x, some e = some x → d < next ∧ dir d ∧ x.file < next := by
    intro x hx
    cases hx
    exact ⟨hd, hdir, he⟩
  unfold Tree.moveMount
  split
  · exact hdrop.setMount hput
  · exact Fits.setMount (hdrop.setParent (p := none) (fun q hq => by cases hq)) hput

end Fits

/-! ## The effects -/

/-- A new child, made by the backend. -/
def insertChild (t : Tree) (d : FileId) (n : Name) (c : FileId) : Tree :=
  (t.setParent c (some d)).setEntries d (t.entries d ++ [(n, c)])

/-- A new child, mounted. -/
def mountChild (t : Tree) (d : FileId) (n : Name) (c : FileId) : Tree :=
  (t.setParent c (some d)).setMount d n (some ⟨.mount, c⟩)

/-- A mount leaves the dcache and keeps its parent pointer; an entry loses both. -/
def removeChild (t : Tree) (d : FileId) (n : Name) : Tree :=
  match t.mount d n with
  | some _ => t.setMount d n none
  | none => t.removeEntry d n

end Tree

/-! ## Edits of a state -/

/-- The descriptor table, the kinds and the working directory stay. -/
structure FS.Edits (s s' : FS) : Prop where
  table : s.KeepsTable s'
  cwd : s'.cwd = s.cwd
  root : s'.rootDirectory = s.rootDirectory

section Edits

variable {s s' s'' : FS}

theorem FS.Edits.refl (s : FS) : s.Edits s := ⟨.refl s, rfl, rfl⟩

theorem FS.Edits.trans (h : s.Edits s') (h' : s'.Edits s'') : s.Edits s'' where
  table := h.table.trans h'.table
  cwd := h'.cwd.trans h.cwd
  root := h'.root.trans h.root

theorem FS.edits_modifyFile (s : FS) (f : FileId) {g : File → File}
    (hg : (g (s.file f)).kind = (s.file f).kind)
    (hb : (g (s.file f)).backend = (s.file f).backend) : s.Edits (s.modifyFile f g) where
  table := by
    refine ⟨Nat.le_refl _, ?_, ?_, rfl, fun _ => rfl, fun _ => rfl, rfl, rfl⟩
    · intro x _
      rw [modifyFile_file]
      split
      · next heq => rw [heq, hg]
      · rfl
    · intro x _
      rw [modifyFile_file]
      split
      · next heq => rw [heq, hb]
      · rfl
  cwd := rfl
  root := rfl

theorem FS.edits_addFile (s : FS) (x : File) : s.Edits (s.addFile x) where
  table := by
    refine ⟨Nat.le_succ _, ?_, ?_, rfl, fun _ => rfl, fun _ => rfl, rfl, rfl⟩
    · intro f hf
      rw [addFile_file, if_neg (Nat.ne_of_lt hf)]
    · intro f hf
      rw [addFile_file, if_neg (Nat.ne_of_lt hf)]
  cwd := rfl
  root := rfl

theorem FS.edits_setParent (s : FS) (f : FileId) (p : Option FileId) : s.Edits (s.setParent f p) :=
  s.edits_modifyFile f rfl rfl

theorem FS.edits_memoryRemoveChild (s : FS) (d : FileId) (n : Name) :
    s.Edits (s.memoryRemoveChild d n) := by
  unfold memoryRemoveChild
  split
  · exact .refl s
  · exact (s.edits_setParent _ none).trans (FS.edits_modifyFile _ d rfl rfl)

theorem FS.edits_memoryInsertMove (s : FS) (d : FileId) (n : Name) (f oldParent : FileId) :
    s.Edits (s.memoryInsertMove d n f oldParent) := by
  unfold memoryInsertMove memoryInsertChild
  refine FS.Edits.trans ?_ (FS.edits_modifyFile _ d rfl rfl)
  exact (s.edits_modifyFile oldParent rfl rfl).trans (FS.edits_memoryRemoveChild _ d n)

theorem FS.edits_dcacheInsert (s : FS) (d : FileId) (n : Name) (e : DCacheEntry) :
    s.Edits (s.dcacheInsert d n e) := by
  apply s.edits_modifyFile d
  · split <;> rfl
  · split <;> rfl

theorem FS.edits_cacheChild (s : FS) (d : FileId) (n : Name) (c : FileId) (k : DCacheKind) :
    s.Edits (s.cacheChild d n c k) := by
  unfold cacheChild
  split
  · exact (s.edits_dcacheInsert d n _).trans (FS.edits_setParent _ c _)
  · exact s.edits_setParent c _

theorem FS.TreeSound.fits (h : s.TreeSound) :
    s.tree.Fits s.nextFile (fun f => (s.file f).kind = .directory) :=
  ⟨h.within, h.leaf⟩

/-- An edit keeps the state sound where it keeps the tree linked and fitting. -/
theorem FS.TreeSound.edit (h : s.TreeSound) (he : s.Edits s') (hl : s'.tree.Linked)
    (hf : s'.tree.Fits s'.nextFile (fun f => (s'.file f).kind = .directory)) : s'.TreeSound where
  linked := hl
  within := hf.within
  leaf := hf.leaf
  root_dir := by
    rw [he.root]
    exact (he.table.kind _ h.within.root_lt).trans h.root_dir
  cwd_dir := by
    rw [he.cwd]
    exact h.cwd_dir.keep he.table.nextFile he.table.kind

/-- The leaves of the state before an edit are those after it, of the files that were
there. -/
theorem FS.Edits.fits (he : s.Edits s') (hnext : s'.nextFile = s.nextFile)
    (h : t.Fits s.nextFile (fun f => (s.file f).kind = .directory)) :
    t.Fits s'.nextFile (fun f => (s'.file f).kind = .directory) := by
  rw [hnext]
  refine ⟨h.within, ?_⟩
  intro f hf
  rcases Nat.lt_or_ge f s.nextFile with hlt | hge
  · exact h.leaf f fun hdir => hf ((he.table.kind f hlt).trans hdir)
  · exact ⟨h.within.blank_entries f hge, fun n => h.within.blank_mount f n hge⟩

end Edits

/-! ## New children -/

section New

variable {s : FS} {d : FileId} {n : Name} {c : FileId} {x : File}

/-- A file as a backend makes it. -/
structure File.Blank (x : File) : Prop where
  parent : x.parent = none
  entries : x.entries = []
  dcache : x.dcache = emptyDCache

theorem blank_newDataFile (b : Option Backend) (mode now : Nat) : (newDataFile b mode now).Blank :=
  ⟨rfl, rfl, rfl⟩

theorem blank_newDirectory (b : Option Backend) (mode now : Nat) : (newDirectory b mode now).Blank :=
  ⟨rfl, rfl, rfl⟩

theorem blank_newSymlink (b : Option Backend) (target : Path) (now : Nat) :
    (newSymlink b target now).Blank :=
  ⟨rfl, rfl, rfl⟩

/-- A file is made outside the tree. -/
theorem FS.TreeSound.addFile (h : s.TreeSound) (hx : x.Blank) : s.KeepsTree (s.addFile x) where
  nextFile := Nat.le_succ _
  kind f hf := by rw [addFile_file, if_neg (Nat.ne_of_lt hf)]
  backend f hf := by rw [addFile_file, if_neg (Nat.ne_of_lt hf)]
  tree := s.tree_addFile hx.parent hx.entries hx.dcache (h.within.blank_parent _ (Nat.le_refl _))
    (h.within.blank_entries _ (Nat.le_refl _)) (fun n => h.within.blank_mount _ n (Nat.le_refl _))
  cwd := rfl

/-- The tree does not know the file, which exists. -/
structure FS.Loose (s : FS) (c : FileId) : Prop where
  lt : c < s.nextFile
  parent : s.tree.parent c = none
  noMount : s.tree.NoMount c
  not_root : c ≠ s.rootDirectory

theorem FS.TreeSound.loose_addFile (h : s.TreeSound) (hx : x.Blank) :
    (s.addFile x).Loose s.nextFile := by
  have htree := (h.addFile hx).tree
  refine ⟨Nat.lt_succ_self _, ?_, ?_, (Nat.ne_of_lt h.within.root_lt).symm⟩
  · rw [htree]
    exact h.within.blank_parent _ (Nat.le_refl _)
  · intro D m e he
    rw [htree] at he
    exact Nat.ne_of_lt (h.within.mount_lt D m e he)

theorem FS.Loose.ne (hc : s.Loose c) (hp : s.tree.parent d ≠ none) : c ≠ d := by
  rintro rfl
  exact hp hc.parent

theorem FS.TreeSound.linked_setParent (h : s.TreeSound) (hc : s.Loose c)
    (hp : s.tree.parent d ≠ none) : (s.tree.setParent c (some d)).Linked :=
  h.linked.setParent (h.linked.noEntry_of_parent hc.parent) hc.noMount hc.not_root
    (fun heq => hc.ne hp (Option.some.inj heq).symm)

theorem FS.TreeSound.fits_setParent (h : s.TreeSound) (hc : s.Loose c) (hd : s.IsDir d) :
    (s.tree.setParent c (some d)).Fits s.nextFile (fun f => (s.file f).kind = .directory) :=
  h.fits.setParent fun _ hq => ⟨Option.some.inj hq ▸ hd.1, hc.lt⟩

/-- The backend enters a loose file. -/
theorem FS.TreeSound.insertChild (h : s.TreeSound) (hc : s.Loose c) (hd : s.IsDir d)
    (hp : s.tree.parent d ≠ none) (hfree : s.tree.child d n = none) :
    ∃ s', ((s.memoryInsertChild d n c).cacheChild d n c .normal).updateMTime d = s' ∧
      s.Edits s' ∧ s'.TreeSound ∧ s'.nextFile = s.nextFile ∧
      s'.tree = s.tree.insertChild d n c := by
  obtain ⟨_, _, _, hlookup⟩ := (Tree.child_eq_none hp).mp hfree
  have hedits : s.Edits (((s.memoryInsertChild d n c).cacheChild d n c .normal).updateMTime d) := by
    refine FS.Edits.trans ?_ (FS.edits_modifyFile _ d rfl rfl)
    exact (s.edits_modifyFile d rfl rfl).trans (FS.edits_cacheChild _ d n c .normal)
  have htree : (((s.memoryInsertChild d n c).cacheChild d n c .normal).updateMTime d).tree =
      s.tree.insertChild d n c := by
    rw [FS.tree_updateMTime, FS.tree_cacheChild_normal, FS.tree_memoryInsertChild]
    rfl
  refine ⟨_, rfl, hedits, h.edit hedits ?_ ?_, rfl, htree⟩
  · rw [htree]
    refine (h.linked_setParent hc hp).addEntry ?_ ?_ hlookup hc.not_root ?_
    · rw [Tree.setParent_parent, if_pos rfl]
    · exact h.linked.noEntry_of_parent hc.parent
    · intro m e he hfile
      exact absurd hfile (hc.noMount d m e he)
  · rw [htree]
    exact hedits.fits rfl ((h.fits_setParent hc hd).setEntries hd.1 hd.2)

/-- A loose file is mounted. -/
theorem FS.TreeSound.mountChild (h : s.TreeSound) (hc : s.Loose c) (hd : s.IsDir d)
    (hp : s.tree.parent d ≠ none) (hfree : s.tree.child d n = none) :
    s.Edits (s.cacheChild d n c .mount) ∧ (s.cacheChild d n c .mount).TreeSound ∧
      (s.cacheChild d n c .mount).nextFile = s.nextFile ∧
      (s.cacheChild d n c .mount).tree = s.tree.mountChild d n c := by
  obtain ⟨_, _, hmount, _⟩ := (Tree.child_eq_none hp).mp hfree
  have hedits := s.edits_cacheChild d n c .mount
  have htree : (s.cacheChild d n c .mount).tree = s.tree.mountChild d n c := by
    rw [s.tree_cacheChild_mount hmount]
    rfl
  have hnext : (s.cacheChild d n c .mount).nextFile = s.nextFile := by
    unfold FS.cacheChild
    rw [if_pos (.inl rfl)]
    rfl
  refine ⟨hedits, h.edit hedits ?_ ?_, hnext, htree⟩
  · rw [htree]
    refine (h.linked_setParent hc hp).addMount rfl ?_ hc.noMount ?_ hc.not_root
    · rw [Tree.setParent_parent, if_pos rfl]
    · intro m hm
      exact absurd hm (h.linked.noEntry_of_parent hc.parent d m)
  · rw [htree]
    refine hedits.fits hnext ((h.fits_setParent hc hd).setMount ?_)
    intro e he
    cases he
    exact ⟨hd.1, hd.2, hc.lt⟩

end New

/-! ## Removal -/

section Remove

variable {s : FS}

theorem Tree.Linked.removeChild (h : t.Linked) (d : FileId) (n : Name) : (t.removeChild d n).Linked := by
  unfold Tree.removeChild
  split
  · exact h.dropMount d n
  · exact h.removeEntry d n

theorem Tree.Fits.removeChild {next : FileId} {dir : FileId → Prop} (h : t.Fits next dir) (d : FileId)
    (n : Name) : (t.removeChild d n).Fits next dir := by
  unfold Tree.removeChild
  split
  · exact h.setMount fun x hx => by cases hx
  · exact h.removeEntry d n

/-- `removeChild` on a sound state. -/
theorem FS.TreeSound.removeChild (h : s.TreeSound) (d : FileId) (n : Name) :
    ∃ s', Directory.removeChild d n s = some (s', .ok ()) ∧ s.Edits s' ∧ s'.TreeSound ∧
      s'.nextFile = s.nextFile ∧ s'.tree = s.tree.removeChild d n := by
  have hmount : s.tree.mount d n = (s.file d).dcache.lookup n := rfl
  have hsound : ∀ {s' : FS}, s.Edits s' → s'.nextFile = s.nextFile →
      s'.tree = s.tree.removeChild d n → s'.TreeSound := by
    intro s' hedits hnext htree
    refine h.edit hedits ?_ ?_
    · rw [htree]
      exact h.linked.removeChild d n
    · rw [htree]
      exact hedits.fits hnext (h.fits.removeChild d n)
  cases he : (s.file d).dcache.lookup n with
  | none =>
    have hedits : s.Edits ((s.memoryRemoveChild d n).updateMTime d) :=
      (s.edits_memoryRemoveChild d n).trans (FS.edits_modifyFile _ d rfl rfl)
    have hnext : ((s.memoryRemoveChild d n).updateMTime d).nextFile = s.nextFile := by
      change (s.memoryRemoveChild d n).nextFile = _
      unfold FS.memoryRemoveChild
      split <;> rfl
    have htree : ((s.memoryRemoveChild d n).updateMTime d).tree = s.tree.removeChild d n := by
      rw [FS.tree_updateMTime, FS.tree_memoryRemoveChild]
      unfold Tree.removeChild
      rw [hmount, he]
    refine ⟨_, ?_, hedits, hsound hedits hnext htree, hnext, htree⟩
    unfold Directory.removeChild
    rw [he]
  | some e =>
    have hkind : e.kind = .mount := h.linked.mount_kind d n e he
    have hedits : s.Edits (s.dcacheErase d n) := s.edits_modifyFile d rfl rfl
    have htree : (s.dcacheErase d n).tree = s.tree.removeChild d n := by
      rw [FS.tree_dcacheErase]
      unfold Tree.removeChild
      rw [hmount, he]
    refine ⟨_, ?_, hedits, hsound hedits rfl htree, rfl, htree⟩
    unfold Directory.removeChild
    obtain ⟨k, f⟩ := e
    cases hkind
    rw [he]

end Remove

/-! ## Moves -/

section Move

variable {s : FS} {R f : FileId}

theorem FS.findInDCache_some (h : s.findInDCache R f = some (a, e)) :
    s.tree.mount R a = some e ∧ e.file = f := by
  unfold findInDCache at h
  obtain ⟨x, hx, heq⟩ := Option.map_eq_some_iff.mp h
  cases heq
  exact ⟨AList.mem_lookup_iff.mpr (List.mem_of_find?_eq_some hx), by simpa using List.find?_some hx⟩

theorem FS.findInDCache_none (h : s.findInDCache R f = none) (he : s.tree.mount R a = some e) : e.file ≠ f := by
  unfold findInDCache at h
  have hnone := List.find?_eq_none.mp (Option.map_eq_none_iff.mp h) ⟨a, e⟩
    (AList.mem_lookup_iff.mp he)
  simpa using hnone

/-- A file that its parent does not hold in the dcache is no mount. -/
theorem FS.TreeSound.noMount_of_find (h : s.TreeSound) (hf : s.tree.parent f = some R)
    (hfind : s.findInDCache R f = none) : s.tree.NoMount f := by
  intro D a e he hfile
  rcases h.linked.mount_parent D a e he with hp | hp
  · rw [hfile, hf] at hp
    cases hp
    exact FS.findInDCache_none hfind he hfile
  · rw [hfile, hf] at hp
    cases hp

/-- The dcache's part of `insertMove`. -/
def FS.moveInDCache (s : FS) (R : FileId) (a : Name) (e : DCacheEntry) (Q : FileId) (b : Name) : FS :=
  match ((s.dcacheErase R a).file Q).dcache.lookup b with
  | none => (s.dcacheErase R a).dcacheInsert Q b e
  | some o => ((s.dcacheErase R a).setParent o.file none).modifyFile Q fun x =>
    { x with dcache := x.dcache.insert b e }

theorem FS.moveInDCache_spec (s : FS) (R : FileId) (a : Name) (e : DCacheEntry) (Q : FileId)
    (b : Name) : s.Edits (s.moveInDCache R a e Q b) ∧
      (s.moveInDCache R a e Q b).nextFile = s.nextFile ∧
      (s.moveInDCache R a e Q b).tree = s.tree.moveMount R a e Q b := by
  have herase : s.Edits (s.dcacheErase R a) := s.edits_modifyFile R rfl rfl
  have htree := s.tree_dcacheErase R a
  unfold FS.moveInDCache Tree.moveMount
  rw [← htree]
  change s.Edits (match (s.dcacheErase R a).tree.mount Q b with | none => _ | some o => _) ∧
    (match (s.dcacheErase R a).tree.mount Q b with | none => _ | some o => _ : FS).nextFile = _ ∧
    (match (s.dcacheErase R a).tree.mount Q b with | none => _ | some o => _ : FS).tree = _
  cases ho : (s.dcacheErase R a).tree.mount Q b with
  | none => exact ⟨herase.trans (FS.edits_dcacheInsert _ Q b e), rfl, FS.tree_dcacheInsert _ e ho⟩
  | some o =>
    refine ⟨(herase.trans (FS.edits_setParent _ o.file none)).trans (FS.edits_modifyFile _ Q rfl rfl),
      rfl, ?_⟩
    simp only []
    rw [FS.tree_dcachePut, FS.tree_setParent]

theorem FS.nextFile_memoryInsertMove (s : FS) (Q : FileId) (b : Name) (f R : FileId) :
    (s.memoryInsertMove Q b f R).nextFile = s.nextFile := by
  unfold memoryInsertMove memoryRemoveChild
  split <;> rfl

/-- What `insertMove` computes. -/
theorem insertMove_eq {Q : FileId} {b : Name} (hp : (s.file Q).parent ≠ none)
    (hf : (s.file f).parent = some R) :
    Directory.insertMove Q b f s =
      let moved := s.memoryInsertMove Q b f R
      let cached := match s.findInDCache R f with
        | none => moved
        | some (a, e) => moved.moveInDCache R a e Q b
      some (((cached.setParent f (some Q)).updateMTime R).updateMTime Q, .ok ()) := by
  unfold Directory.insertMove
  rw [if_neg hp, hf]
  rfl

/-- A move on a sound state. -/
theorem FS.TreeSound.insertMove (h : s.TreeSound) {Q : FileId} {b : Name} (hQ : s.IsDir Q)
    (hp : s.tree.parent Q ≠ none) (hf : s.tree.parent f = some R) (hlt : f < s.nextFile)
    (hroot : f ≠ s.rootDirectory) (hne : f ≠ Q) :
    ∃ s', Directory.insertMove Q b f s = some (s', .ok ()) ∧ s.Edits s' ∧ s'.TreeSound ∧
      s'.nextFile = s.nextFile ∧ s.tree.Moved s'.tree R Q b f := by
  have hmovedEdits := s.edits_memoryInsertMove Q b f R
  have hmovedNext := s.nextFile_memoryInsertMove Q b f R
  have hmovedTree := s.tree_memoryInsertMove Q b f R
  have hfits := h.fits.moveEntry (f := f) b R hQ.1 hQ.2
  have hstate : ∀ cached : FS, s.Edits cached → cached.nextFile = s.nextFile →
      cached.tree.Fits s.nextFile (fun x => (s.file x).kind = .directory) →
      s.tree.Moved (cached.tree.setParent f (some Q)) R Q b f →
      let s' := ((cached.setParent f (some Q)).updateMTime R).updateMTime Q
      s.Edits s' ∧ s'.TreeSound ∧ s'.nextFile = s.nextFile ∧ s.tree.Moved s'.tree R Q b f := by
    intro cached hedits hnext hcfits hmoved s'
    have hedits' : s.Edits s' := by
      refine hedits.trans ?_
      refine FS.Edits.trans ?_ (FS.edits_modifyFile _ Q rfl rfl)
      exact (cached.edits_setParent f (some Q)).trans (FS.edits_modifyFile _ R rfl rfl)
    have htree : s'.tree = cached.tree.setParent f (some Q) := by
      rw [FS.tree_updateMTime, FS.tree_updateMTime, FS.tree_setParent]
    refine ⟨hedits', h.edit hedits' (htree ▸ hmoved.linked) ?_, hnext, htree ▸ hmoved⟩
    rw [htree]
    exact hedits'.fits hnext (hcfits.setParent fun _ hq => ⟨Option.some.inj hq ▸ hQ.1, hlt⟩)
  have heq := insertMove_eq (b := b) hp hf
  cases hfind : s.findInDCache R f with
  | none =>
    rw [hfind] at heq
    refine ⟨_, heq, hstate _ hmovedEdits hmovedNext ?_ ?_⟩
    · rw [hmovedTree]
      exact hfits
    · rw [hmovedTree]
      exact h.linked.moveEntry hf (h.noMount_of_find hf hfind) hroot hne
  | some p =>
    obtain ⟨a, e⟩ := p
    obtain ⟨he, hfile⟩ := FS.findInDCache_some hfind
    rw [hfind] at heq
    obtain ⟨hcached, hcnext, hctree⟩ := (s.memoryInsertMove Q b f R).moveInDCache_spec R a e Q b
    rw [hmovedTree] at hctree
    refine ⟨_, heq, hstate _ (hmovedEdits.trans hcached) (hcnext.trans hmovedNext) ?_ ?_⟩
    · rw [hctree]
      exact hfits.moveMount b hQ.1 hQ.2 (hfile ▸ hlt)
    · rw [hctree]
      exact h.linked.moveMount hf he hfile hroot hne

end Move

end WasmFS
