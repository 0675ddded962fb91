-- SUMMARY: Every call on the tree keeps the name table and the directories in agreement, if names are spelled as they are stored.
import Emscripten.JsFs.NameTable

/-!
# The name table over runs

What each call does to the two indexes. They stay in agreement where no node gets the name
`__proto__`, which a directory does not list, and where a name that is taken away is spelled
as it is stored, since it is deleted from the contents under the spelling of the call.
-/

namespace JsFs

open Prog Machine

variable {s : FS} {n p : NodeId} {name : Name} {gone : List MountId}

/-! ## Contents -/

/-- New contents leave the links of every node. -/
theorem links_setContents (s : FS) (p : NodeId) (o : DirObject) (x : NodeId) :
    ((s.setNode p ((s.node p).setContents o)).node x).parent = (s.node x).parent ∧
      ((s.setNode p ((s.node p).setContents o)).node x).name = (s.node x).name ∧
      ((s.setNode p ((s.node p).setContents o)).node x).isDir = (s.node x).isDir ∧
      ((s.setNode p ((s.node p).setContents o)).node x).mount = (s.node x).mount ∧
      ((s.setNode p ((s.node p).setContents o)).node x).mounted = (s.node x).mounted := by
  simp only [FS.setNode, Function.update_apply]
  split
  · next he => simp [he]
  · exact ⟨rfl, rfl, rfl, rfl, rfl⟩

theorem contents_update (s : FS) (p : NodeId) (o : DirObject) (d : NodeId) :
    ((s.setNode p ((s.node p).setContents o)).node d).contents =
      if d = p ∧ (s.node p).isDir = true then o else (s.node d).contents := by
  simp only [FS.setNode, Function.update_apply]
  by_cases hd : d = p
  · subst hd
    cases hdir : (s.node d).isDir with
    | true => simp [Node.contents_setContents_of_isDir _ hdir]
    | false =>
      have hdir' : ((s.node d).setContents o).isDir = false := by simp [hdir]
      simp [Node.contents_of_not_isDir _ hdir, Node.contents_of_not_isDir _ hdir']
  · simp [hd]

variable {e : Name × NodeId} {d : NodeId} {new_name : Name} {k : Nat} {path : Path}

theorem mem_entries_deleteChild :
    e ∈ (s.deleteChild p name).entries d ↔ e ∈ s.entries d ∧ ¬ (d = p ∧ e.1 = name) := by
  unfold FS.entries FS.deleteChild
  rw [contents_update]
  split
  · next hd => simp [hd.1]
  · next hd =>
      refine ⟨fun he => ⟨he, ?_⟩, And.left⟩
      rintro ⟨rfl, _⟩
      have hdir : (s.node d).isDir = false := by simpa using hd
      rw [Node.contents_of_not_isDir _ hdir] at he
      cases he

theorem proto_deleteChild (d : NodeId) :
    ((s.deleteChild p name).node d).contents.proto = (s.node d).contents.proto := by
  unfold FS.deleteChild
  rw [contents_update]
  split
  · next hd => rw [hd.1]; rfl
  · rfl

theorem mem_entries_setChild (hp : (s.node p).isDir = true) (hname : name ≠ DirObject.protoKey) :
    e ∈ (s.setChild p name n).entries d ↔
      d = p ∧ e = (name, n) ∨ e ∈ s.entries d ∧ ¬ (d = p ∧ e.1 = name) := by
  unfold FS.entries FS.setChild
  rw [contents_update]
  by_cases hd : d = p
  · simp [hd, hp, DirObject.mem_set _ hname]
  · simp [hd]

theorem proto_setChild (hname : name ≠ DirObject.protoKey) (d : NodeId) :
    ((s.setChild p name n).node d).contents.proto = (s.node d).contents.proto := by
  unfold FS.setChild
  rw [contents_update]
  split
  · next hd => rw [hd.1, DirObject.proto_set _ hname]
  · rfl

/-! ## Chains -/

section Chains

variable [Build]

theorem FS.Chained.of_names {t : FS} (h : s.Chained) (hchain : t.nameTable = s.nameTable)
    (hnode : ∀ n, (t.node n).parent = (s.node n).parent ∧ (t.node n).name = (s.node n).name) :
    t.Chained where
  hashed k n hn := by
    rw [hchain] at hn
    unfold FS.hashOf
    rw [(hnode n).1, (hnode n).2]
    exact h.hashed k n hn
  nodup k := by
    rw [hchain]
    exact h.nodup k

theorem FS.Chained.mem_hashRemoveNode (h : s.Chained) {m : NodeId} :
    m ∈ (s.hashRemoveNode n).nameTable k ↔ m ∈ s.nameTable k ∧ m ≠ n := by
  simp only [FS.hashRemoveNode, FS.setChain, Function.update_apply]
  split
  · next he =>
      rw [he, (h.nodup _).mem_erase_iff]
      exact and_comm
  · next hne =>
      refine ⟨fun hm => ⟨hm, ?_⟩, And.left⟩
      rintro rfl
      exact hne (h.hashed k m hm).symm

theorem FS.Chained.hashRemoveNode (h : s.Chained) (n : NodeId) : (s.hashRemoveNode n).Chained where
  hashed k m hm := h.hashed k m (h.mem_hashRemoveNode.mp hm).1
  nodup k := by
    simp only [FS.hashRemoveNode, FS.setChain, Function.update_apply]
    split
    · exact (h.nodup _).erase n
    · exact h.nodup k

theorem mem_hashAddNode_iff {m : NodeId} :
    m ∈ (s.hashAddNode n).nameTable k ↔ m = n ∧ k = s.hashOf n ∨ m ∈ s.nameTable k := by
  simp only [FS.hashAddNode, FS.setChain, Function.update_apply]
  split
  · next he => simp [he]
  · next hne => simp [hne]

theorem nodup_hashAddNode (h : ∀ k, (s.nameTable k).Nodup) (hn : n ∉ s.nameTable (s.hashOf n)) (k : Nat) :
    ((s.hashAddNode n).nameTable k).Nodup := by
  simp only [FS.hashAddNode, FS.setChain, Function.update_apply]
  split
  · exact List.nodup_cons.mpr ⟨hn, h _⟩
  · exact h k

theorem hashName_congr {a b : Name} (h : Build.fold a = Build.fold b) (p : NodeId) :
    hashName p a = hashName p b := by
  unfold hashName
  rw [h]

end Chains

/-! ## The move -/

section Move

variable [Build] {old new_dir : NodeId} {new_node : Option NodeId}

namespace FS

/-- The nodes a move takes out of the name table. -/
def Vacates (old : NodeId) (new_node : Option NodeId) (x : NodeId) : Prop :=
  x = old ∨ new_node = some x

def vacate (s : FS) (old : NodeId) : Option NodeId → FS
  | some n => (s.hashRemoveNode old).hashRemoveNode n
  | none => s.hashRemoveNode old

theorem move_eq (s : FS) (old new_dir : NodeId) (new_name : Name) (new_node : Option NodeId) :
    s.move old new_dir new_name new_node =
      ((MEMFS.rewire (s.vacate old new_node) old new_dir new_name).setNode old
        { (MEMFS.rewire (s.vacate old new_node) old new_dir new_name).node old with
          parent := new_dir }).hashAddNode old := by
  cases new_node <;> rfl

theorem move_nextInode (s : FS) (old new_dir : NodeId) (new_name : Name) (new_node : Option NodeId) :
    (s.move old new_dir new_name new_node).nextInode = s.nextInode := by
  cases new_node <;> rfl

theorem vacate_node (s : FS) (old : NodeId) (new_node : Option NodeId) :
    (s.vacate old new_node).node = s.node := by
  cases new_node <;> rfl

theorem Chained.vacate (h : s.Chained) (old : NodeId) (new_node : Option NodeId) :
    (s.vacate old new_node).Chained := by
  cases new_node with
  | none => exact h.hashRemoveNode old
  | some n => exact (h.hashRemoveNode old).hashRemoveNode n

theorem Chained.mem_vacate (h : s.Chained) {x : NodeId} :
    x ∈ (s.vacate old new_node).nameTable k ↔ x ∈ s.nameTable k ∧ ¬ Vacates old new_node x := by
  unfold Vacates
  cases new_node with
  | none =>
    refine h.mem_hashRemoveNode.trans (and_congr Iff.rfl ?_)
    simp
  | some n =>
    refine (h.hashRemoveNode old).mem_hashRemoveNode.trans ?_
    rw [h.mem_hashRemoveNode, and_assoc, not_or]
    refine and_congr Iff.rfl (and_congr Iff.rfl ?_)
    exact not_congr ⟨fun he => congrArg some he.symm, fun he => (Option.some.inj he).symm⟩

/-- The two changes of entries. -/
def rewired (s : FS) (old new_dir : NodeId) (new_name : Name) : FS :=
  (s.deleteChild (s.node old).parent (s.node old).name).setChild new_dir new_name old

theorem move_node (s : FS) (old new_dir : NodeId) (new_name : Name) (new_node : Option NodeId)
    (x : NodeId) : (s.move old new_dir new_name new_node).node x =
      if x = old then { (s.rewired old new_dir new_name).node old with
        name := new_name, parent := new_dir }
      else (s.rewired old new_dir new_name).node x := by
  have hnode : ∀ w : FS, w.node = s.node →
      (((MEMFS.rewire w old new_dir new_name).setNode old
        { (MEMFS.rewire w old new_dir new_name).node old with parent := new_dir }).node x) =
      if x = old then { (s.rewired old new_dir new_name).node old with
        name := new_name, parent := new_dir }
      else (s.rewired old new_dir new_name).node x := by
    intro w hw
    simp only [MEMFS.rewire, rewired, setNode, setChild, deleteChild, Function.update_apply, hw]
    split <;> simp
  rw [move_eq]
  exact hnode _ (vacate_node s old new_node)

omit [Build] in
theorem rewired_links (s : FS) (old new_dir : NodeId) (new_name : Name) (x : NodeId) :
    ((s.rewired old new_dir new_name).node x).parent = (s.node x).parent ∧
      ((s.rewired old new_dir new_name).node x).name = (s.node x).name ∧
      ((s.rewired old new_dir new_name).node x).isDir = (s.node x).isDir ∧
      ((s.rewired old new_dir new_name).node x).mount = (s.node x).mount ∧
      ((s.rewired old new_dir new_name).node x).mounted = (s.node x).mounted := by
  obtain ⟨h₁, h₂, h₃, h₄, h₅⟩ := links_setContents s (s.node old).parent
    ((s.node (s.node old).parent).contents.delete (s.node old).name) x
  obtain ⟨k₁, k₂, k₃, k₄, k₅⟩ := links_setContents (s.deleteChild (s.node old).parent (s.node old).name)
    new_dir (((s.deleteChild (s.node old).parent (s.node old).name).node new_dir).contents.set
      new_name old) x
  exact ⟨k₁.trans h₁, k₂.trans h₂, k₃.trans h₃, k₄.trans h₄, k₅.trans h₅⟩

theorem move_links (s : FS) (old new_dir : NodeId) (new_name : Name) (new_node : Option NodeId)
    (x : NodeId) : ((s.move old new_dir new_name new_node).node x).parent =
        (if x = old then new_dir else (s.node x).parent) ∧
      ((s.move old new_dir new_name new_node).node x).name =
        (if x = old then new_name else (s.node x).name) ∧
      ((s.move old new_dir new_name new_node).node x).isDir = (s.node x).isDir ∧
      ((s.move old new_dir new_name new_node).node x).mount = (s.node x).mount ∧
      ((s.move old new_dir new_name new_node).node x).mounted = (s.node x).mounted := by
  obtain ⟨h₁, h₂, h₃, h₄, h₅⟩ := rewired_links s old new_dir new_name x
  rw [move_node]
  split
  · next he =>
      subst he
      exact ⟨rfl, rfl, h₃, h₄, h₅⟩
  · exact ⟨h₁, h₂, h₃, h₄, h₅⟩

theorem move_contents (s : FS) (old new_dir : NodeId) (new_name : Name) (new_node : Option NodeId)
    (d : NodeId) : ((s.move old new_dir new_name new_node).node d).contents =
      ((s.rewired old new_dir new_name).node d).contents := by
  rw [move_node]
  split
  · next he =>
      subst he
      rfl
  · rfl

theorem mem_entries_move (hdir : (s.node new_dir).isDir = true) (hname : new_name ≠ DirObject.protoKey) :
    e ∈ (s.move old new_dir new_name new_node).entries d ↔
      d = new_dir ∧ e = (new_name, old) ∨
        (e ∈ s.entries d ∧ ¬ (d = (s.node old).parent ∧ e.1 = (s.node old).name)) ∧
          ¬ (d = new_dir ∧ e.1 = new_name) := by
  have hdir' : ((s.deleteChild (s.node old).parent (s.node old).name).node new_dir).isDir = true :=
    (links_setContents s _ _ new_dir).2.2.1.trans hdir
  have hentries : (s.move old new_dir new_name new_node).entries d =
      (s.rewired old new_dir new_name).entries d :=
    congrArg DirObject.entries (move_contents s old new_dir new_name new_node d)
  rw [hentries]
  unfold rewired
  rw [mem_entries_setChild hdir' hname, mem_entries_deleteChild]

theorem proto_move (hname : new_name ≠ DirObject.protoKey) (d : NodeId) :
    ((s.move old new_dir new_name new_node).node d).contents.proto = (s.node d).contents.proto := by
  rw [move_contents]
  exact (proto_setChild hname d).trans (proto_deleteChild d)

theorem Chained.mem_move (h : s.Chained) {x : NodeId} :
    x ∈ (s.move old new_dir new_name new_node).nameTable k ↔
      x = old ∧ k = hashName new_dir new_name ∨
        x ∈ s.nameTable k ∧ ¬ Vacates old new_node x := by
  rw [move_eq, mem_hashAddNode_iff]
  refine or_congr (and_congr Iff.rfl ?_) h.mem_vacate
  simp [hashOf, setNode, MEMFS.rewire]

theorem Chained.nodup_move (h : s.Chained) (new_name : Name) (k : Nat) :
    ((s.move old new_dir new_name new_node).nameTable k).Nodup := by
  rw [move_eq]
  have hvacated : ∀ j, old ∉ (s.vacate old new_node).nameTable j := fun j hin =>
    (h.mem_vacate.mp hin).2 (.inl rfl)
  apply nodup_hashAddNode
  · exact (h.vacate old new_node).nodup
  · exact hvacated _

end FS

end Move

/-! ## The calls -/

namespace FS

variable [Build]

namespace Indexed

/-- Where a lookup finds nothing, no entry has such a name. -/
theorem free (h : s.Indexed gone) (hf : s.Family gone) (hlive : ¬ s.Destroyed gone p)
    (hl : s.hashLookup p name = none) : ∀ e ∈ s.entries p, Build.fold e.1 ≠ Build.fold name := by
  intro e he hfold
  obtain ⟨hlt, hparent, hname⟩ := h.entry p e he
  have hlisted : s.Listed e.2 := by
    unfold Listed
    rw [hparent, hname]
    exact he
  have hlive' : ¬ s.Destroyed gone e.2 := fun hd =>
    hlive (hparent ▸ (hf.destroyed_parent hlt).mpr hd)
  have hin := h.chained e.2 hlt hlive' (.inr hlisted)
  have hhash : s.hashOf e.2 = hashName p name := by
    unfold hashOf
    rw [hparent, hname]
    exact hashName_congr hfold p
  rw [hhash] at hin
  unfold hashLookup at hl
  have hno := List.find?_eq_none.mp hl e.2 hin
  exact hno (decide_eq_true ⟨hparent, by rw [hname]; exact hfold⟩)

/-- What is found and is no root is listed in the directory, under its own name. -/
theorem listed_of_found (h : s.Indexed gone) (hl : s.hashLookup p name = some n)
    (hroot : s.isRoot n = false) : s.Named p name n ∧ (s.node n |>.name, n) ∈ s.entries p := by
  obtain ⟨hin, hnamed⟩ := hashLookup_some hl
  refine ⟨hnamed, ?_⟩
  rcases h.placed _ n hin with hr | hlisted
  · rw [hroot] at hr
    cases hr
  · unfold Listed at hlisted
    rw [hnamed.1] at hlisted
    exact hlisted

/-- An entry is that of a node exactly when it is under the node's name in its parent. -/
theorem entry_iff (h : s.Indexed gone) (hn : ((s.node n).name, n) ∈ s.entries p) (he : e ∈ s.entries d) :
    (d = p ∧ e.1 = (s.node n).name) ↔ e.2 = n := by
  constructor
  · rintro ⟨rfl, hk⟩
    rw [h.unique d e he _ hn (by rw [hk])]
  · rintro rfl
    obtain ⟨_, hp, hname⟩ := h.entry d e he
    obtain ⟨_, hp', _⟩ := h.entry p _ hn
    exact ⟨hp.symm.trans hp', hname.symm⟩

/-- A removal under the name that is stored. -/
theorem removed (h : s.Indexed gone) (hl : s.hashLookup p (s.node n).name = some n)
    (hroot : s.isRoot n = false) :
    ((s.deleteChild p (s.node n).name).hashRemoveNode n).Indexed gone := by
  obtain ⟨_, hentry⟩ := h.listed_of_found hl hroot
  have hlinks := links_setContents s p ((s.node p).contents.delete (s.node n).name)
  have hchained : (s.deleteChild p (s.node n).name).Chained :=
    h.toChained.of_names rfl fun x => ⟨(hlinks x).1, (hlinks x).2.1⟩
  refine h.drops (Q := (· = n)) (R := (· = n)) ⟨rfl, fun x => ⟨(hlinks x).1, (hlinks x).2.1,
    (hlinks x).2.2.1⟩, fun k x => hchained.mem_hashRemoveNode, (hchained.hashRemoveNode n).nodup,
    fun d e => ?_, fun d => proto_deleteChild d⟩ (fun x hx => ⟨hx, hx ▸ hroot⟩) fun x => ?_
  · refine mem_entries_deleteChild.trans ⟨fun ⟨he, hne⟩ => ⟨he, ?_⟩, fun ⟨he, hne⟩ => ⟨he, ?_⟩⟩
    · exact fun hn => hne ((h.entry_iff hentry he).mpr hn)
    · exact fun hk => hne ((h.entry_iff hentry he).mp hk)
  · unfold Destroyed
    have hmount : (((s.deleteChild p (s.node n).name).hashRemoveNode n).node x).mount =
        (s.node x).mount := (hlinks x).2.2.2.1
    rw [hmount]
    simp

/-- A node is taken out of its chain and put back. -/
theorem readded (h : s.Indexed gone) (hn : n ∈ s.nameTable (s.hashOf n)) :
    ((s.hashRemoveNode n).hashAddNode n).Indexed gone := by
  have hchained := h.toChained.hashRemoveNode n
  refine h.drops (Q := fun _ => False) (R := fun _ => False) ⟨rfl, fun _ => ⟨rfl, rfl, rfl⟩,
    fun k x => ?_, ?_, fun _ _ => by simp [entries, FS.hashRemoveNode, hashAddNode, setChain],
    fun _ => rfl⟩ (fun _ hx => hx.elim) fun x => ?_
  · rw [mem_hashAddNode_iff, h.toChained.mem_hashRemoveNode]
    constructor
    · rintro (⟨rfl, rfl⟩ | ⟨hx, _⟩)
      · exact ⟨hn, id⟩
      · exact ⟨hx, id⟩
    · rintro ⟨hx, _⟩
      by_cases he : x = n
      · subst he
        exact .inl ⟨rfl, (h.hashed k x hx).symm⟩
      · exact .inr ⟨hx, he⟩
  · refine nodup_hashAddNode hchained.nodup fun hin => ?_
    exact (h.toChained.mem_hashRemoveNode.mp hin).2 rfl
  · simp [Destroyed, FS.hashRemoveNode, hashAddNode, setChain]

/-- A new node, under a name that no entry has. -/
theorem grow (h : s.Indexed gone) (hf : s.Family gone) (hp : (s.node p).isDir = true)
    (hlive : ¬ s.Destroyed gone p) (hl : s.hashLookup p name = none)
    (hname : name ≠ DirObject.protoKey) (data : Data) (perm : Mode)
    (hdata : ∀ o, data = .dir o → o = ⟨[], none⟩) : (s.grow p name data perm).Indexed gone := by
  have hlt := hf.lt_of_isDir hp
  have hfree := h.free hf hlive hl
  have hnew : (s.grow p name data perm).node s.nextInode =
      ⟨p, name, data, perm, (s.node p).mount, none⟩ := by rw [grow_node hlt, if_pos rfl]
  have hempty : (⟨p, name, data, perm, (s.node p).mount, none⟩ : Node).contents = ⟨[], none⟩ := by
    unfold Node.contents
    split
    · next o ho => exact hdata o ho
    · rfl
  have hold : ∀ m ≠ s.nextInode, ((s.grow p name data perm).node m).parent = (s.node m).parent ∧
      ((s.grow p name data perm).node m).name = (s.node m).name ∧
      ((s.grow p name data perm).node m).isDir = (s.node m).isDir ∧
      ((s.grow p name data perm).node m).mount = (s.node m).mount := fun m hm => by
    rw [grow_node hlt, if_neg hm]
    split
    · next he => simp [he]
    · exact ⟨rfl, rfl, rfl, rfl⟩
  have hfresh : ∀ {k}, s.nextInode ∉ s.nameTable k := fun hin => Nat.lt_irrefl _ (h.lt _ _ hin)
  have hcontents : ∀ d, ((s.grow p name data perm).node d).contents =
      if d = p then (s.node p).contents.set name s.nextInode else (s.node d).contents := fun d => by
    rw [grow_node hlt]
    by_cases hd : d = s.nextInode
    · rw [if_pos hd, hempty, if_neg (by rw [hd]; exact Nat.ne_of_gt hlt), hd, hf.blank _ (Nat.le_refl _)]
      rfl
    · rw [if_neg hd]
      split
      · exact Node.contents_setContents_of_isDir _ hp _
      · rfl
  refine h.places (R := (· = s.nextInode)) (n := s.nextInode) (p := p) (k := name) (l := True)
    ⟨Nat.le_succ _, Nat.lt_succ_self _, fun m hm hne => Nat.lt_of_le_of_ne (Nat.le_of_lt_succ hm) hne,
      rfl, by rw [hnew], by rw [hnew], hold, fun k m => ?_, fun k => ?_, fun d e => ?_, fun d => ?_⟩
    (fun m hm he => absurd he hm) ?_ (.inl trivial) (fun he => absurd he (Nat.ne_of_lt hlt))
    fun _ e he _ => hfree e he
  · rw [grow_nameTable, Function.update_apply]
    have hm : m ∈ s.nameTable k → m ≠ s.nextInode := fun hin he => hfresh (he ▸ hin)
    split
    · next hk =>
        subst hk
        simp only [List.mem_cons, and_true]
        exact or_congr Iff.rfl ⟨fun hin => ⟨hin, hm hin⟩, And.left⟩
    · next hk =>
        simp only [hk, and_false, false_or]
        exact ⟨fun hin => ⟨hin, hm hin⟩, And.left⟩
  · rw [grow_nameTable, Function.update_apply]
    split
    · exact List.nodup_cons.mpr ⟨hfresh, h.nodup _⟩
    · exact h.nodup k
  · have he : e ∈ s.entries d → e.2 ≠ s.nextInode := fun hin => Nat.ne_of_lt (h.entry d e hin).1
    unfold entries
    rw [hcontents]
    split
    · next hd =>
        subst hd
        rw [DirObject.mem_set _ hname]
        refine or_congr (by simp) ⟨fun hin => ⟨hin.1, he hin.1⟩, fun hin => ⟨hin.1, fun hk => ?_⟩⟩
        exact hfree e hin.1 (by rw [hk])
    · next hd =>
        simp only [hd, false_and, and_false, false_or]
        exact ⟨fun hin => ⟨hin, he hin⟩, And.left⟩
  · rw [hcontents]
    split
    · rw [DirObject.proto_set _ hname]
      exact h.proto p
    · exact h.proto d
  · unfold Destroyed
    rw [hnew]
    exact hlive

/-- What was found at the new name of a move is spelled as it is stored. -/
def Spelled (s : FS) (new_name : Name) (new_node : Option NodeId) : Prop :=
  ∀ n, new_node = some n → (s.node n).name = new_name

theorem moved {old new_dir : NodeId} {old_name : Name} {new_node : Option NodeId} (h : s.Indexed gone)
    (hf : s.Family gone) (hold : s.hashLookup p old_name = some old) (hroot : s.isRoot old = false)
    (hdir : (s.node new_dir).isDir = true) (hlive : ¬ s.Destroyed gone new_dir)
    (hmount : (s.node p).mount = (s.node new_dir).mount) (hnew : s.hashLookup new_dir new_name = new_node)
    (hroot' : ∀ n, new_node = some n → s.isRoot n = false) (hspell : Spelled s new_name new_node)
    (hname : new_name ≠ DirObject.protoKey) : (s.move old new_dir new_name new_node).Indexed gone := by
  obtain ⟨hnamed, hentry⟩ := h.listed_of_found hold hroot
  have hlt := (h.entry p _ hentry).1
  have hlinks := move_links s old new_dir new_name new_node
  -- An entry of the node that is replaced is the one under the new name.
  have hnewEntry : ∀ n, new_node = some n → ((s.node n).name, n) ∈ s.entries new_dir := fun n hn =>
    (h.listed_of_found (hnew.trans hn) (hroot' n hn)).2
  have hleaves : ∀ {d e}, e ∈ s.entries d → (Vacates old new_node e.2 ↔
      (d = (s.node old).parent ∧ e.1 = (s.node old).name) ∨ d = new_dir ∧ e.1 = new_name) := by
    intro d e he
    rw [hnamed.1, h.entry_iff hentry he]
    refine or_congr Iff.rfl ⟨fun hn => ?_, fun ⟨hd, hk⟩ => ?_⟩
    · have hiff := (h.entry_iff (hnewEntry _ hn) he).mpr rfl
      exact ⟨hiff.1, hiff.2.trans (hspell _ hn)⟩
    · subst hd
      cases hn : new_node with
      | none => exact absurd (congrArg Build.fold hk) (h.free hf hlive (hnew.trans hn) e he)
      | some n =>
        have hk' : e.1 = (s.node n).name := hk.trans (hspell n hn).symm
        exact congrArg some ((h.entry_iff (hnewEntry n hn) he).mp ⟨rfl, hk'⟩).symm
  refine h.places (R := Vacates old new_node) (n := old) (p := new_dir) (k := new_name) (l := True)
    ⟨Nat.le_of_eq (move_nextInode ..).symm, ?_, fun m hm _ => ?_, .inl rfl, (hlinks old).1.trans (if_pos rfl),
      (hlinks old).2.1.trans (if_pos rfl), fun m hm => ?_, fun k x => h.toChained.mem_move,
      h.toChained.nodup_move new_name, fun d e => ?_, fun d => (proto_move hname d).trans (h.proto d)⟩
    (fun m hm hR => ?_) ?_ (.inl trivial) (fun he => ⟨?_, .inr trivial⟩) fun _ e he hR hfold => ?_
  · rw [move_nextInode]
    exact hlt
  · rw [move_nextInode] at hm
    exact hm
  · have hm' := hlinks m
    rw [if_neg hm, if_neg hm] at hm'
    exact ⟨hm'.1, hm'.2.1, hm'.2.2.1, hm'.2.2.2.1⟩
  · rw [mem_entries_move hdir hname, and_assoc]
    refine or_congr (by simp) (and_congr_right fun he => ?_)
    rw [hleaves he, not_or]
  · rcases hR with hR | hR
    · exact absurd hR hm
    · exact hroot' m hR
  · -- The node stays in its mount, which is that of the new directory.
    rintro ⟨m, hm, he⟩
    rw [(hlinks old).2.2.2.1] at he
    have hfam := hf.mount old hlt
    rw [hnamed.1, hmount] at hfam
    exact hlive ⟨m, hm, hfam.trans he⟩
  · rw [(hlinks old).2.2.1, ← he]
    exact hdir
  · cases hn : new_node with
    | none => exact h.free hf hlive (hnew.trans hn) e he hfold
    | some n =>
      have he' := h.unique new_dir e he _ (hnewEntry n hn) (hfold.trans (by rw [hspell n hn]))
      exact hR (.inr (by rw [hn, he']))

theorem addMount (h : s.Indexed gone) (hf : s.Family gone) (hn : n < s.nextInode) :
    (s.addMount path n).Indexed gone := by
  rw [addMount_eq hn]
  obtain ⟨hnode, hnext, htable, _⟩ := enlist_same (s.withMount path n) n s.nextMount
  have hfresh : ∀ {k}, s.nextInode ∉ s.nameTable k := fun hin => Nat.lt_irrefl _ (h.lt _ _ hin)
  have hroot := withMount_root path hn
  have hold : ∀ {x}, x ≠ s.nextInode → (s.withMount path n).node x =
      if x = n then { s.node n with mounted := some s.nextMount } else s.node x := fun {x} hx => by
    simp only [withMount, Function.update_apply, hx, if_false]
  have hcontents : ∀ d, ((s.withMount path n).node d).contents = (s.node d).contents := fun d => by
    by_cases hd : d = s.nextInode
    · rw [hd, hroot, hf.blank _ (Nat.le_refl _)]
      rfl
    · rw [hold hd]
      split
      · next he => rw [he]; rfl
      · rfl
  have hchain : ∀ k, (s.withMount path n).nameTable k =
      if k = hashName s.nextInode ['/'] then s.nextInode :: s.nameTable (hashName s.nextInode ['/'])
      else s.nameTable k := fun k => by
    simp only [withMount, Function.update_apply]
  refine h.places (R := (· = s.nextInode)) (n := s.nextInode) (p := s.nextInode) (k := ['/'])
    (l := False) ⟨?_, ?_, fun m hm hne => ?_, rfl, ?_, ?_, fun m hm => ?_, fun k m => ?_, fun k => ?_,
      fun d e => ?_, fun d => ?_⟩ (fun m hm he => absurd he hm) ?_ (.inr rfl)
    (fun _ => ⟨?_, .inl rfl⟩) fun hl => hl.elim
  · rw [hnext]
    exact Nat.le_succ _
  · rw [hnext]
    exact Nat.lt_succ_self _
  · rw [hnext] at hm
    exact Nat.lt_of_le_of_ne (Nat.le_of_lt_succ hm) hne
  · rw [hnode, hroot]
  · rw [hnode, hroot]
  · rw [hnode, hold hm]
    split
    · next he => exact he ▸ ⟨rfl, rfl, rfl, rfl⟩
    · exact ⟨rfl, rfl, rfl, rfl⟩
  · rw [htable, hchain]
    have hm : m ∈ s.nameTable k → m ≠ s.nextInode := fun hin he => hfresh (he ▸ hin)
    split
    · next hk =>
        subst hk
        simp only [List.mem_cons, and_true]
        exact or_congr Iff.rfl ⟨fun hin => ⟨hin, hm hin⟩, And.left⟩
    · next hk =>
        simp only [hk, and_false, false_or]
        exact ⟨fun hin => ⟨hin, hm hin⟩, And.left⟩
  · rw [htable, hchain]
    split
    · exact List.nodup_cons.mpr ⟨hfresh, h.nodup _⟩
    · exact h.nodup k
  · unfold entries
    rw [hnode, hcontents]
    simp only [false_and, false_or]
    exact ⟨fun hin => ⟨hin, Nat.ne_of_lt (h.entry d e hin).1⟩, And.left⟩
  · rw [hnode, hcontents]
    exact h.proto d
  · rintro ⟨m, hm, he⟩
    rw [hnode, hroot] at he
    cases he
    exact Nat.lt_irrefl _ (hf.past _ hm).2
  · rw [hnode, hroot]
    rfl

theorem removeMount (h : s.Indexed gone) (m : MountId) :
    (s.removeMount n m).Indexed (s.below m ++ gone) := by
  rw [removeMount_eq]
  obtain ⟨hnode, hnext, htable, _⟩ := unlist_same (s.withoutMount n m) n m
  have hlinks : ∀ x, ((s.withoutMount n m).node x).parent = (s.node x).parent ∧
      ((s.withoutMount n m).node x).name = (s.node x).name ∧
      ((s.withoutMount n m).node x).isDir = (s.node x).isDir ∧
      ((s.withoutMount n m).node x).mount = (s.node x).mount ∧
      ((s.withoutMount n m).node x).contents = (s.node x).contents := fun x => by
    rw [withoutMount_node]
    split
    · next he => exact he ▸ ⟨rfl, rfl, rfl, rfl, rfl⟩
    · exact ⟨rfl, rfl, rfl, rfl, rfl⟩
  have hchain : ∀ k, (s.withoutMount n m).nameTable k = (s.nameTable k).filter fun x =>
      ¬ ((s.node x).mount.any ((s.below m).contains ·) ∧ s.hashOf x = k) := fun _ => rfl
  have hany : ∀ x, (s.node x).mount.any ((s.below m).contains ·) = true ↔ s.Destroyed (s.below m) x := by
    intro x
    unfold Destroyed
    simp [Option.any_eq_true, and_comm]
  refine h.drops (Q := s.Destroyed (s.below m)) (R := fun _ => False) ⟨hnext, fun x => ?_, fun k x => ?_,
    fun k => ?_, fun d e => ?_, fun d => ?_⟩ (fun x hx => hx.elim) fun x => ?_
  · rw [hnode]
    exact ⟨(hlinks x).1, (hlinks x).2.1, (hlinks x).2.2.1⟩
  · rw [htable, hchain, List.mem_filter, decide_eq_true_eq, hany]
    refine and_congr_right fun hx => not_congr ?_
    rw [h.hashed k x hx]
    simp
  · rw [htable, hchain]
    exact (h.nodup k).filter _
  · unfold entries
    rw [hnode, (hlinks d).2.2.2.2]
    simp
  · rw [hnode, (hlinks d).2.2.2.2]
  · unfold Destroyed
    rw [hnode, (hlinks x).2.2.2.1]
    simp only [List.mem_append, not_false_eq_true, and_true]
    constructor
    · rintro ⟨m', hm' | hm', he⟩
      · exact .inr ⟨m', hm', he⟩
      · exact .inl ⟨m', hm', he⟩
    · rintro (⟨m', hm', he⟩ | ⟨m', hm', he⟩)
      · exact ⟨m', .inr hm', he⟩
      · exact ⟨m', .inl hm', he⟩

end Indexed

end FS

/-! ## Runs -/

/-- The file system, and the mounts that `unmount` destroyed so far. -/
structure TreeRun where
  fs : FS
  gone : List MountId

namespace TreeRun

variable [Build]

def start : TreeRun := ⟨FS.initial, []⟩

def step (s : TreeRun) (c : TreeCall) : Option TreeRun :=
  (c.run s.fs).map fun p => ⟨p.1, s.fs.unmounted c ++ s.gone⟩

/-- What is found under a path has the name as it is spelled in the path. -/
def StoredAt (s : FS) (path : Path) : Prop := ∀ p n, s.lookupParent path = .ok p →
  s.lookupNode p (Path.basename path) = .ok n → (s.node n).name = Path.basename path

/-- No node gets the name `__proto__`, and a node whose name is taken away, or taken over by another
node, is spelled as it is stored. -/
def NamesStored (s : TreeRun) : TreeCall → Prop
  | .mknod path _ _ | .mkdir path _ | .symlink _ path => Path.basename path ≠ DirObject.protoKey
  | .unlink path | .rmdir path => StoredAt s.fs path
  | .rename old_path new_path => Path.basename new_path ≠ DirObject.protoKey ∧
      ∀ p n, s.fs.lookupParent new_path = .ok p →
        s.fs.lookupNode p (Path.basename new_path) = .ok n →
        (∀ q, s.fs.lookupParent old_path = .ok q →
          s.fs.lookupNode q (Path.basename old_path) ≠ .ok n) →
        (s.fs.node n).name = Path.basename new_path
  | .mount _ | .unmount _ | .chdir _ => True

/-- The tables agree. -/
structure Agrees (s : TreeRun) : Prop where
  family : s.fs.Family s.gone
  indexed : s.fs.Indexed s.gone

variable {s t : TreeRun} {c : TreeCall}

theorem Agrees.closed (h : s.Agrees) :
    s.fs.Closed fun n => n < s.fs.nextInode ∧ ¬ s.fs.Destroyed s.gone n :=
  h.family.closed fun k n hn => ⟨h.indexed.lt k n hn, h.indexed.live k n hn⟩

/-- What may be deleted is no root. -/
theorem Agrees.not_root (h : s.Agrees) {dir n : NodeId} {name : Name} {isdir : Bool}
    (hd : s.fs.Deletable dir name isdir n) : s.fs.isRoot n = false := by
  cases hdir : isdir with
  | true => exact (hd.inner hdir).1
  | false =>
    cases hroot : s.fs.isRoot n with
    | false => rfl
    | true =>
      have hlt := (h.closed.lookupNode hd.found).1
      have hn := (h.indexed.root n hlt hroot).1
      rw [hd.kind, hdir] at hn
      cases hn

theorem chdir_indexed {fs : FS} {gone : List MountId} (h : fs.Indexed gone) (current : Path) :
    ({ fs with currentPath := current } : FS).Indexed gone :=
  ⟨⟨h.hashed, h.nodup⟩, h.lt, h.live, h.placed, h.chained, h.entry, h.proto, h.unique, h.root⟩

theorem made_stored (hc : c.made = some path) (hs : s.NamesStored c) :
    Path.basename path ≠ DirObject.protoKey := by
  cases c <;> cases hc <;> exact hs

theorem removed_stored {isdir : Bool} (hc : c.removed = some (path, isdir)) (hs : s.NamesStored c) :
    StoredAt s.fs path ∧ s.fs.unmounted c = [] := by
  cases c <;> cases hc <;> exact ⟨hs, rfl⟩

theorem Agrees.step (h : s.Agrees) (hc : s.NamesStored c) (hs : s.step c = some t) : t.Agrees := by
  obtain ⟨⟨fs', r⟩, hrun, rfl⟩ := Option.map_eq_some_iff.mp hs
  have hstep := tree_step hrun
  have hf := h.family
  have hi := h.indexed
  have hlinks := links_setContents s.fs
  cases hstep with
  | same _ hun =>
    rw [hun]
    exact h
  | grown hmade hp hmay data perm hdata =>
    rw [unmounted_of_made hmade]
    obtain ⟨hdir, hfree⟩ := free_of_mayCreate hmay
    exact ⟨hf.grow hdir _ data perm, hi.grow hf hdir (h.closed.lookupParent hp).2 hfree
      (made_stored hmade hc) data perm hdata⟩
  | @removed c path isdir hremoved parent n hp hn hbusy hempty =>
    obtain ⟨hstored, hun⟩ := removed_stored hremoved hc
    rw [hun]
    have hname := hstored parent n hp hn.found
    have hroot := h.not_root hn
    have hfound := (lookupNode_ok_iff.mp hn.found).2
    rw [← hname] at hfound ⊢
    refine ⟨?_, hi.removed hfound hroot⟩
    refine hf.relink rfl rfl rfl rfl (fun x => (hlinks _ _ x).2.2.2) (fun x hx => ?_)
      fun x _ => .inl (hlinks _ _ x).1
    have hne : x ≠ parent := fun he =>
      Nat.lt_irrefl _ (Nat.lt_of_le_of_lt hx (he ▸ (h.closed.lookupParent hp).1))
    exact Function.update_of_ne hne _ _
  | readded hr =>
    have hfound := (lookupNode_ok_iff.mp hr.oldNode).2
    obtain ⟨hin, hnamed⟩ := hashLookup_some hfound
    refine ⟨?_, hi.readded ?_⟩
    · exact hf.relink rfl rfl rfl rfl (fun _ => ⟨rfl, rfl⟩) (fun _ _ => rfl) fun _ _ => .inl rfl
    · rw [hi.hashed _ _ hin]
      exact hin
  | @moved old_path new_path old_dir old new_dir new_node hr hempty =>
    have hfound := (lookupNode_ok_iff.mp hr.oldNode).2
    have hold := h.closed.lookupNode hr.oldNode
    have hnewDir := h.closed.lookupParent hr.newDir
    obtain ⟨hdir, hnew⟩ : (s.fs.node new_dir).isDir = true ∧
        s.fs.hashLookup new_dir (Path.basename new_path) = new_node := by
      cases hn : new_node with
      | none => exact free_of_mayCreate (hr.create hn)
      | some n => exact ⟨isDir_of_lookupNode (hr.deleteNew n hn).found,
          (lookupNode_ok_iff.mp (hr.deleteNew n hn).found).2⟩
    have hspell : FS.Indexed.Spelled s.fs (Path.basename new_path) new_node := fun n hn => by
      refine hc.2 new_dir n hr.newDir (hr.deleteNew n hn).found fun q hq he => ?_
      cases hr.oldDir.symm.trans hq
      exact hr.ne (hn.trans (congrArg some (Except.ok.inj (he.symm.trans hr.oldNode))))
    refine ⟨?_, hi.moved hf hfound (h.not_root hr.deleteOld) hdir hnewDir.2 hr.mount hnew
      (fun n hn => h.not_root (hr.deleteNew n hn)) hspell hc.1⟩
    have hmove := FS.move_links s.fs old new_dir (Path.basename new_path) new_node
    refine hf.relink (FS.move_nextInode ..) ?_ ?_ ?_ (fun x => (hmove x).2.2.2) (fun x hx => ?_)
      fun x hx => ?_
    · cases new_node <;> rfl
    · cases new_node <;> rfl
    · cases new_node <;> rfl
    · have hne : x ≠ old := fun he => Nat.lt_irrefl _ (Nat.lt_of_le_of_lt hx (he ▸ hold.1))
      have hne' : x ≠ new_dir := fun he => Nat.lt_irrefl _ (Nat.lt_of_le_of_lt hx (he ▸ hnewDir.1))
      have hne'' : x ≠ (s.fs.node old).parent := fun he =>
        Nat.lt_irrefl _ (Nat.lt_of_le_of_lt hx (he ▸ hf.parent old hold.1))
      rw [FS.move_node, if_neg hne]
      simp [FS.rewired, FS.setChild, FS.deleteChild, FS.setNode, Function.update_apply, hne', hne'']
    · rw [(hmove x).1]
      split
      · next he =>
          subst he
          have hnamed := (hashLookup_some hfound).2
          have hmount := hf.mount x hx
          rw [hnamed.1, hr.mount] at hmount
          exact .inr ⟨hnewDir.1, hmount⟩
      · exact .inl rfl
  | mounted hl hfree hdir =>
    have hn := hf.lt_of_isDir hdir
    exact ⟨hf.addMount hn, hi.addMount hf hn⟩
  | @unmounted mountpoint path n m hl hm =>
    have hun : s.fs.unmounted (.unmount mountpoint) = s.fs.below m := by
      unfold FS.unmounted
      simp [hl, hm]
    rw [hun]
    exact ⟨hf.removeMount hm, hi.removeMount m⟩
  | entered hl hdir =>
    refine ⟨?_, chdir_indexed hi _⟩
    exact hf.relink rfl rfl rfl rfl (fun _ => ⟨rfl, rfl⟩) (fun _ _ => rfl) fun _ _ => .inl rfl

/-! ## From the start -/

theorem initial_node (n : NodeId) : FS.initial.node n =
    if n = 0 then ⟨0, ['/'], .dir ⟨[], none⟩, S_IRWXUGO, some 0, none⟩
    else if n = 1 then ⟨1, ['/'], .dir ⟨[], none⟩, S_IRWXUGO, none, none⟩
    else FS.blank.node n := by
  match n with
  | 0 => rfl
  | 1 => rfl
  | n + 2 => rfl

theorem mem_initial (k n : Nat) : n ∈ FS.initial.nameTable k ↔
    (n = 0 ∨ n = 1) ∧ k = hashName n ['/'] := by
  have hfirst : n ∈ (FS.blank.createNode none ['/'] (.dir ⟨[], none⟩) S_IRWXUGO).nameTable k ↔
      n = 0 ∧ k = hashName 0 ['/'] :=
    mem_hashAddNode_iff.trans (or_iff_left fun hn => nomatch hn)
  have hsecond : n ∈ FS.initial.nameTable k ↔ n = 1 ∧ k = hashName 1 ['/'] ∨
      n ∈ (FS.blank.createNode none ['/'] (.dir ⟨[], none⟩) S_IRWXUGO).nameTable k :=
    mem_hashAddNode_iff
  rw [hsecond, hfirst]
  constructor
  · rintro (⟨rfl, hk⟩ | ⟨rfl, hk⟩)
    · exact ⟨.inr rfl, hk⟩
    · exact ⟨.inl rfl, hk⟩
  · rintro ⟨rfl | rfl, hk⟩
    · exact .inr ⟨rfl, hk⟩
    · exact .inl ⟨rfl, hk⟩

theorem nodup_initial (k : Nat) : (FS.initial.nameTable k).Nodup := by
  unfold FS.initial FS.createNode
  apply nodup_hashAddNode
  · intro j
    apply nodup_hashAddNode
    · exact fun _ => List.nodup_nil
    · exact fun hin => nomatch hin
  · intro hin
    rcases mem_hashAddNode_iff.mp hin with ⟨h, _⟩ | h
    · cases h
    · cases h

theorem entries_initial (d : NodeId) : (FS.initial.node d).contents = ⟨[], none⟩ := by
  rw [initial_node]
  split
  · rfl
  · split <;> rfl

theorem mounted_initial (n : NodeId) : (FS.initial.node n).mounted = none := by
  rw [initial_node]
  split
  · rfl
  · split <;> rfl

theorem family_initial : FS.initial.Family [] where
  blank n hn := by
    change 2 ≤ n at hn
    rw [initial_node, if_neg (Nat.ne_of_gt (Nat.lt_of_lt_of_le Nat.zero_lt_two hn)),
      if_neg (Nat.ne_of_gt hn)]
  parent n hn := by
    match n, hn with
    | 0, _ => exact Nat.zero_lt_two
    | 1, _ => exact Nat.one_lt_two
  mount n hn := by
    match n, hn with
    | 0, _ => rfl
    | 1, _ => rfl
  root := ⟨Nat.zero_lt_two, rfl⟩
  mounted n m hm := by
    rw [mounted_initial] at hm
    cases hm
  one n n' m hm := by
    rw [mounted_initial] at hm
    cases hm
  child m₁ m hm := nomatch hm
  first := Nat.one_pos
  past m hm := nomatch hm
  live n m hm := by
    rw [mounted_initial] at hm
    cases hm

theorem agrees_start : start.Agrees where
  family := family_initial
  indexed := by
    have hnode : ∀ {n}, n = 0 ∨ n = 1 → FS.initial.isRoot n = true ∧
        (FS.initial.node n).isDir = true ∧ (FS.initial.node n).name = ['/'] ∧
        FS.initial.hashOf n = hashName n ['/'] := by
      rintro n (rfl | rfl) <;> exact ⟨rfl, rfl, rfl, rfl⟩
    have hlt : ∀ {n}, n < FS.initial.nextInode → n = 0 ∨ n = 1 := fun {n} hn => by
      match n, hn with
      | 0, _ => exact .inl rfl
      | 1, _ => exact .inr rfl
    have hno : ∀ d e, e ∉ FS.initial.entries d := fun d e he => by
      unfold FS.entries at he
      rw [entries_initial] at he
      cases he
    refine ⟨⟨fun k n hn => ?_, nodup_initial⟩, fun k n hn => ?_, fun k n hn => ?_, fun k n hn => ?_,
      fun n hn _ _ => ?_, fun d e he => absurd he (hno d e), fun d => ?_,
      fun d e he => absurd he (hno d e), fun n hn _ => ?_⟩
    · obtain ⟨hn, hk⟩ := (mem_initial k n).mp hn
      exact (hnode hn).2.2.2.trans hk.symm
    · rcases ((mem_initial k n).mp hn).1 with rfl | rfl
      · exact Nat.zero_lt_two
      · exact Nat.one_lt_two
    · rintro ⟨m, hm, _⟩
      cases hm
    · exact .inl (hnode ((mem_initial k n).mp hn).1).1
    · exact (mem_initial _ n).mpr ⟨hlt hn, (hnode (hlt hn)).2.2.2⟩
    · exact congrArg DirObject.proto (entries_initial d)
    · exact ⟨(hnode (hlt hn)).2.1, .inl (hnode (hlt hn)).2.2.1⟩

/-! ## What lookup finds -/

/-- A name other than that of a root is found exactly where a name like it is listed. -/
theorem Agrees.lookup_iff (h : s.Agrees) (hlive : ¬ s.fs.Destroyed s.gone d) (hmay : s.fs.mayLookup d = none)
    {name : Name} (hname : Build.fold name ≠ Build.fold ['/']) :
    (∃ n, s.fs.lookupNode d name = .ok n) ↔
      ∃ k ∈ (s.fs.node d).contents.keys, Build.fold k = Build.fold name := by
  constructor
  · rintro ⟨n, hn⟩
    obtain ⟨hin, hnamed⟩ := hashLookup_some (lookupNode_ok_iff.mp hn).2
    have hlisted : s.fs.Listed n → ∃ k ∈ (s.fs.node d).contents.keys, Build.fold k = Build.fold name := by
      intro hl
      unfold FS.Listed at hl
      rw [hnamed.1] at hl
      exact ⟨(s.fs.node n).name, List.mem_map.mpr ⟨_, hl, rfl⟩, hnamed.2⟩
    rcases h.indexed.placed _ n hin with hroot | hl
    · -- A root that is not listed has the name "/".
      rcases (h.indexed.root n (h.indexed.lt _ n hin) hroot).2 with hslash | hl
      · rw [← hnamed.2, hslash] at hname
        exact absurd rfl hname
      · exact hlisted hl
    · exact hlisted hl
  · rintro ⟨k, hk, hfold⟩
    obtain ⟨e, he, rfl⟩ := List.mem_map.mp hk
    cases hfound : s.fs.hashLookup d name with
    | some n => exact ⟨n, lookupNode_ok_iff.mpr ⟨hmay, hfound⟩⟩
    | none => exact absurd hfold (h.indexed.free h.family hlive hfound e he)

/-- In a run in which names are spelled as they are stored: a node is in the chain of its hash,
exactly once, if and only if it is a root or is listed, and has not been destroyed by an unmount;
names that are equal under the comparison are one node's; and what a directory lists is what is
found there. -/
theorem name_table_agrees : ∀ s, Reaches step NamesStored start s →
    (∀ n < s.fs.nextInode, (s.fs.nameTable (s.fs.hashOf n)).count n = 1 ↔
      ¬ s.fs.Destroyed s.gone n ∧ (s.fs.isRoot n = true ∨ s.fs.Listed n)) ∧
    (∀ n m, s.fs.Listed n → s.fs.Listed m → (s.fs.node n).parent = (s.fs.node m).parent →
      Build.fold (s.fs.node n).name = Build.fold (s.fs.node m).name → n = m) ∧
    ∀ d, ¬ s.fs.Destroyed s.gone d → s.fs.mayLookup d = none →
      ∀ name, Build.fold name ≠ Build.fold ['/'] →
        ((∃ n, s.fs.lookupNode d name = .ok n) ↔
          ∃ k ∈ (s.fs.node d).contents.keys, Build.fold k = Build.fold name) := by
  intro s hr
  have h : s.Agrees := hr.invariant agrees_start fun _ _ _ h hc hs => h.step hc hs
  refine ⟨fun n hn => ?_, fun n m hn hm hparent hfold => ?_,
    fun d hd hmay name hname => h.lookup_iff hd hmay hname⟩
  · rw [(h.indexed.nodup _).count]
    constructor
    · intro hcount
      have hin : n ∈ s.fs.nameTable (s.fs.hashOf n) := by
        by_contra hno
        simp [hno] at hcount
      exact ⟨h.indexed.live _ n hin, h.indexed.placed _ n hin⟩
    · rintro ⟨hlive, hplaced⟩
      exact if_pos (h.indexed.chained n hn hlive hplaced)
  · unfold FS.Listed at hn hm
    rw [← hparent] at hm
    exact congrArg Prod.snd (h.indexed.unique _ _ hn _ hm hfold)

end TreeRun

/-! ## Names spelled otherwise -/

section Examples

attribute [local instance] Build.caseSensitive

def made : List TreeCall := [.mkdir "/a".toList S_IRWXUGO]

/-- A directory is made: its node is in its chain once, and is found under its name. -/
theorem name_table_agrees_made : ∃ s, Reaches TreeRun.step TreeRun.NamesStored TreeRun.start s ∧
    (s.fs.nameTable (s.fs.hashOf 2)).count 2 = 1 ∧ ∃ n, s.fs.lookupNode 0 "a".toList = .ok n := by
  have hrun : (exec TreeRun.step TreeRun.start made).map (fun s => (s.fs.nextInode,
      decide (s.fs.Listed 2 ∧ s.fs.mayLookup 0 = none), (s.fs.node 0).contents.keys, s.gone)) =
      some (3, true, ["a".toList], []) := by decide
  obtain ⟨s, hs, he⟩ := Option.map_eq_some_iff.mp hrun
  simp only [Prod.mk.injEq, decide_eq_true_eq] at he
  obtain ⟨hnext, ⟨hlisted, hmay⟩, hkeys, hgone⟩ := he
  have hname : Path.basename "/a".toList ≠ DirObject.protoKey := by decide
  have hmeets : Meets TreeRun.step TreeRun.NamesStored TreeRun.start made :=
    ⟨hname, fun _ _ => trivial⟩
  have hreach := reaches_of_exec made hs hmeets
  obtain ⟨hcount, _, hfound⟩ := TreeRun.name_table_agrees s hreach
  have hlive : ∀ n, ¬ s.fs.Destroyed s.gone n := fun n ⟨m, hm, _⟩ => by
    rw [hgone] at hm
    cases hm
  refine ⟨s, hreach, (hcount 2 (by rw [hnext]; decide)).mpr ⟨hlive 2, .inr hlisted⟩, ?_⟩
  refine (hfound 0 (hlive 0) hmay "a".toList (by decide)).mpr ⟨"a".toList, ?_, rfl⟩
  rw [hkeys]
  exact List.mem_singleton.mpr rfl

end Examples

section Insensitive

/-- The build with `CASE_INSENSITIVE_FS`, on names of ASCII characters. -/
abbrev Build.caseInsensitive : Build := ⟨List.map Char.toLower⟩

attribute [local instance] Build.caseInsensitive

/-- The file "a" is unlinked as "A": it is found no more, and still listed. -/
theorem unlink_other_spelling : ∃ s, Reaches TreeRun.step Any TreeRun.start s ∧
    ¬ ((s.fs.nameTable (s.fs.hashOf 2)).count 2 = 1 ↔ ¬ s.fs.Destroyed s.gone 2 ∧
      (s.fs.isRoot 2 = true ∨ s.fs.Listed 2)) ∧
    "a".toList ∈ (s.fs.node 0).contents.keys ∧ s.fs.lookupNode 0 "a".toList = .error .ENOENT := by
  have hrun : (exec TreeRun.step TreeRun.start
      [.mknod "/a".toList .file S_IRWXUGO, .unlink "/A".toList]).map
      (fun s => ((s.fs.nameTable (s.fs.hashOf 2)).count 2, decide (s.fs.Listed 2 ∧ s.gone = []),
        (s.fs.node 0).contents.keys, decide (s.fs.lookupNode 0 "a".toList = .error .ENOENT))) =
      some (0, true, ["a".toList], true) := by decide
  obtain ⟨s, hs, he⟩ := reaches_of_map _ hrun
  simp only [Prod.mk.injEq, decide_eq_true_eq] at he
  obtain ⟨hcount, ⟨hlisted, hgone⟩, hkeys, hfound⟩ := he
  refine ⟨s, hs, fun hiff => ?_, by rw [hkeys]; exact List.mem_singleton.mpr rfl, hfound⟩
  have hlive : ¬ s.fs.Destroyed s.gone 2 := by
    rintro ⟨m, hm, _⟩
    rw [hgone] at hm
    cases hm
  have hone := hiff.mpr ⟨hlive, .inr hlisted⟩
  rw [hcount] at hone
  cases hone

end Insensitive

end JsFs
