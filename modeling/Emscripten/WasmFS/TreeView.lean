-- SUMMARY: The tree behind the files: who lists whom, who names whom as its parent, and what the directory operations do to it.
import Emscripten.WasmFS.Directory

/-!
# The tree

`Tree` keeps of a state what the directory operations read and write: the parent
pointers, the entry vectors and the mounts. Every operation of `Directory` acts on the
tree through the few updates of this module, and the invariants are stated about
trees.
-/

namespace WasmFS

open Assoc

structure Tree where
  parent : FileId → Option FileId
  entries : FileId → List (Name × FileId)
  mount : FileId → Name → Option DCacheEntry
  root : FileId

namespace Tree

@[ext] theorem ext {t t' : Tree} (hp : ∀ f, t.parent f = t'.parent f)
    (he : ∀ d, t.entries d = t'.entries d) (hm : ∀ d n, t.mount d n = t'.mount d n)
    (hr : t.root = t'.root) : t = t' := by
  cases t
  cases t'
  simp only [Tree.mk.injEq]
  refine ⟨funext hp, funext he, ?_, hr⟩
  funext d n
  exact hm d n

/-- What a lookup of `name` in `d` finds. -/
def child (t : Tree) (d : FileId) (name : Name) : Option FileId :=
  match t.parent d with
  | none => none
  | some parent =>
    if name = dot then some d
    else if name = dotDot then some parent
    else match t.mount d name with
      | some e => some e.file
      | none => (t.entries d).lookup name

/-! ## Updates -/

def setParent (t : Tree) (f : FileId) (p : Option FileId) : Tree :=
  { t with parent := Function.update t.parent f p }

def setEntries (t : Tree) (d : FileId) (es : List (Name × FileId)) : Tree :=
  { t with entries := Function.update t.entries d es }

def setMount (t : Tree) (d : FileId) (n : Name) (e : Option DCacheEntry) : Tree :=
  { t with mount := Function.update t.mount d (Function.update (t.mount d) n e) }

/-- The backend drops the entry of a name, and the child loses its parent. -/
def removeEntry (t : Tree) (d : FileId) (n : Name) : Tree :=
  match (t.entries d).lookup n with
  | none => t
  | some c => (t.setParent c none).setEntries d (dropFirst Prod.fst n (t.entries d))

/-- The backend's part of moving `f` from `oldParent` to the name `n` in `d`. -/
def moveEntry (t : Tree) (d : FileId) (n : Name) (f oldParent : FileId) : Tree :=
  let t' := (t.setEntries oldParent (dropFirst Prod.snd f (t.entries oldParent))).removeEntry d n
  t'.setEntries d (t'.entries d ++ [(n, f)])

/-- The dcache's part: the entry `e` moves from the name `a` of `oldParent` to the name
`n` of `d`, and an entry it overwrites loses its parent. -/
def moveMount (t : Tree) (oldParent : FileId) (a : Name) (e : DCacheEntry) (d : FileId) (n : Name) :
    Tree :=
  match (t.setMount oldParent a none).mount d n with
  | none => (t.setMount oldParent a none).setMount d n (some e)
  | some o => ((t.setMount oldParent a none).setParent o.file none).setMount d n (some e)

section Reading

variable (t : Tree) (d d' f g : FileId) (n n' : Name)

variable (es : List (Name × FileId)) (e : Option DCacheEntry) (p : Option FileId)

@[simp] theorem setParent_entries : (t.setParent f p).entries = t.entries := rfl

@[simp] theorem setParent_mount : (t.setParent f p).mount = t.mount := rfl

@[simp] theorem setParent_root : (t.setParent f p).root = t.root := rfl

@[simp] theorem setEntries_parent : (t.setEntries d es).parent = t.parent := rfl

@[simp] theorem setEntries_mount : (t.setEntries d es).mount = t.mount := rfl

@[simp] theorem setEntries_root : (t.setEntries d es).root = t.root := rfl

@[simp] theorem setMount_parent : (t.setMount d n e).parent = t.parent := rfl

@[simp] theorem setMount_entries : (t.setMount d n e).entries = t.entries := rfl

@[simp] theorem setMount_root : (t.setMount d n e).root = t.root := rfl

theorem setParent_parent : (t.setParent f p).parent g = if g = f then p else t.parent g := by
  simp [setParent, Function.update_apply]

theorem setEntries_entries : (t.setEntries d es).entries d' = if d' = d then es else t.entries d' := by
  simp [setEntries, Function.update_apply]

theorem setMount_mount : (t.setMount d n e).mount d' n' = if d' = d ∧ n' = n then e else t.mount d' n' := by
  simp only [setMount, Function.update_apply]
  by_cases hd : d' = d
  · subst hd
    by_cases hn : n' = n
    · simp [hn]
    · simp [hn]
  · simp [hd]

end Reading

end Tree

/-! ## The tree of a state -/

namespace FS

def tree (s : FS) : Tree where
  parent f := (s.file f).parent
  entries d := (s.file d).entries
  mount d n := (s.file d).dcache.lookup n
  root := s.rootDirectory

variable (s : FS)

theorem tree_setParent (f : FileId) (p : Option FileId) :
    (s.setParent f p).tree = s.tree.setParent f p := by
  ext1
  · simp only [tree, setParent_file, Tree.setParent_parent]
    split <;> rfl
  · simp only [tree, setParent_file, Tree.setParent_entries]
    split
    · next h => rw [h]
    · rfl
  · simp only [tree, setParent_file, Tree.setParent_mount]
    split
    · next h => rw [h]
    · rfl
  · rfl

theorem tree_modifyFile {f : FileId} {h : File → File} (hp : (h (s.file f)).parent = (s.file f).parent)
    (he : (h (s.file f)).entries = (s.file f).entries)
    (hm : (h (s.file f)).dcache = (s.file f).dcache) : (s.modifyFile f h).tree = s.tree := by
  ext1
  · simp only [tree, modifyFile_file]
    split
    · next h' => rw [h', hp]
    · rfl
  · simp only [tree, modifyFile_file]
    split
    · next h' => rw [h', he]
    · rfl
  · simp only [tree, modifyFile_file]
    split
    · next h' => rw [h', hm]
    · rfl
  · rfl

@[simp] theorem tree_updateMTime (f : FileId) : (s.updateMTime f).tree = s.tree :=
  s.tree_modifyFile rfl rfl rfl

variable (d : FileId) (n : Name)

theorem tree_modifyEntries (g : List (Name × FileId) → List (Name × FileId)) :
    (s.modifyFile d fun x => { x with entries := g x.entries }).tree =
      s.tree.setEntries d (g (s.tree.entries d)) := by
  ext1
  · simp only [tree, modifyFile_file, Tree.setEntries_parent]
    split
    · next h' => rw [h']
    · rfl
  · simp only [tree, modifyFile_file, Tree.setEntries_entries]
    split <;> rfl
  · simp only [tree, modifyFile_file, Tree.setEntries_mount]
    split
    · next h' => rw [h']
    · rfl
  · rfl

theorem tree_memoryInsertChild (c : FileId) :
    (s.memoryInsertChild d n c).tree = s.tree.setEntries d (s.tree.entries d ++ [(n, c)]) :=
  s.tree_modifyEntries d fun es => es ++ [(n, c)]

theorem tree_memoryRemoveChild : (s.memoryRemoveChild d n).tree = s.tree.removeEntry d n := by
  unfold memoryRemoveChild Tree.removeEntry
  have hget : s.memoryGetChild d n = (s.tree.entries d).lookup n := rfl
  rw [hget]
  cases (s.tree.entries d).lookup n with
  | none => rfl
  | some c =>
    simp only []
    rw [tree_modifyEntries, tree_setParent]
    rfl

theorem tree_memoryInsertMove (f oldParent : FileId) :
    (s.memoryInsertMove d n f oldParent).tree = s.tree.moveEntry d n f oldParent := by
  unfold memoryInsertMove Tree.moveEntry
  rw [tree_memoryInsertChild, tree_memoryRemoveChild,
    s.tree_modifyEntries oldParent (dropFirst Prod.snd f)]

theorem tree_modifyDCache (e : Option DCacheEntry)
    (g : AList (fun _ : Name => DCacheEntry) → AList (fun _ : Name => DCacheEntry))
    (hg : ∀ n', (g (s.file d).dcache).lookup n' =
      if n' = n then e else (s.file d).dcache.lookup n') :
    (s.modifyFile d fun x => { x with dcache := g x.dcache }).tree = s.tree.setMount d n e := by
  ext1
  · simp only [tree, modifyFile_file, Tree.setMount_parent]
    split
    · next h' => rw [h']
    · rfl
  · simp only [tree, modifyFile_file, Tree.setMount_entries]
    split
    · next h' => rw [h']
    · rfl
  · next d' n' =>
      simp only [tree, modifyFile_file, Tree.setMount_mount]
      by_cases hd : d' = d
      · subst hd
        simp [hg]
      · simp [hd]
  · rfl

theorem tree_dcachePut (e : DCacheEntry) :
    (s.modifyFile d fun x => { x with dcache := x.dcache.insert n e }).tree =
      s.tree.setMount d n (some e) := by
  apply s.tree_modifyDCache d n (some e) (fun m => m.insert n e)
  intro n'
  split
  · next h => rw [h, AList.lookup_insert]
  · next h => rw [AList.lookup_insert_ne h]

theorem tree_dcacheErase : (s.dcacheErase d n).tree = s.tree.setMount d n none := by
  apply s.tree_modifyDCache d n none (fun m => m.erase n)
  intro n'
  split
  · next h => rw [h, AList.lookup_erase]
  · next h => rw [AList.lookup_erase_ne h]

theorem tree_dcacheInsert {d : FileId} {n : Name} (e : DCacheEntry)
    (h : s.tree.mount d n = none) : (s.dcacheInsert d n e).tree = s.tree.setMount d n (some e) := by
  have hsame : s.dcacheInsert d n e =
      s.modifyFile d fun x => { x with dcache := x.dcache.insert n e } := by
    have hd : (s.file d).dcache.lookup n = none := h
    simp [dcacheInsert, modifyFile, hd]
  rw [hsame, tree_dcachePut]

theorem tree_cacheChild_mount {d : FileId} {n : Name} {c : FileId}
    (h : s.tree.mount d n = none) : (s.cacheChild d n c .mount).tree =
      (s.tree.setMount d n (some ⟨.mount, c⟩)).setParent c (some d) := by
  unfold cacheChild
  rw [if_pos (.inl rfl), tree_setParent, tree_dcacheInsert _ _ h]

theorem tree_cacheChild_normal (c : FileId) :
    (s.cacheChild d n c .normal).tree = s.tree.setParent c (some d) := by
  have hnot : ¬ (DCacheKind.normal = .mount ∨ (s.file d).maintainsFileIdentity = false) := by
    unfold File.maintainsFileIdentity
    decide
  unfold cacheChild
  rw [if_neg hnot, tree_setParent]

/-- A new file that lists nothing and has no parent is outside the tree. -/
theorem tree_addFile {x : File} (hp : x.parent = none) (he : x.entries = [])
    (hm : x.dcache = emptyDCache) (hparent : s.tree.parent s.nextFile = none)
    (hentries : s.tree.entries s.nextFile = []) (hmount : ∀ n, s.tree.mount s.nextFile n = none) :
    (s.addFile x).tree = s.tree := by
  ext1
  · simp only [tree, addFile_file]
    split
    · next h => rw [h, hp, ← hparent]; rfl
    · rfl
  · simp only [tree, addFile_file]
    split
    · next h => rw [h, he, ← hentries]; rfl
    · rfl
  · next d n =>
      simp only [tree, addFile_file]
      split
      · next h =>
          rw [h, hm]
          have hnone := hmount n
          simp only [tree] at hnone
          rw [hnone]
          exact AList.lookup_empty n
      · rfl
  · rfl

end FS

end WasmFS
