-- SUMMARY: The identities in use: what the tables of the file system refer to has been made, and so has what a lookup finds.
import Emscripten.JsFs.AccessModes

/-!
# Allocated nodes

Every identity in the tables is that of a node that was made. A lookup ends at one of these,
and the calls that open and close streams keep it so.
-/

namespace JsFs

open Prog

/-- The children in a directory have been made. -/
def DirObject.Below (o : DirObject) (bound : NodeId) : Prop :=
  (∀ e ∈ o.entries, e.2 < bound) ∧ ∀ n, o.proto = some n → n < bound

variable {l : FS.Lookup} {path : Path} {n : NodeId}

namespace DirObject.Below

variable {o : DirObject} {bound : NodeId}

theorem empty : (⟨[], none⟩ : DirObject).Below bound :=
  ⟨fun _ he => (nomatch he), fun _ hn => (nomatch hn)⟩

theorem mono (h : o.Below bound) {bound' : NodeId} (hle : bound ≤ bound') : o.Below bound' :=
  ⟨fun e he => Nat.lt_of_lt_of_le (h.1 e he) hle, fun n hn => Nat.lt_of_lt_of_le (h.2 n hn) hle⟩

theorem set (h : o.Below bound) (name : Name) (hn : n < bound) : (o.set name n).Below bound := by
  unfold DirObject.set
  split
  · refine ⟨h.1, fun m hm => ?_⟩
    cases hm
    exact hn
  · split
    · refine ⟨fun e he => ?_, h.2⟩
      obtain ⟨e', he', rfl⟩ := List.mem_map.mp he
      split
      · exact hn
      · exact h.1 e' he'
    · refine ⟨fun e he => ?_, h.2⟩
      rcases List.mem_append.mp he with he | he
      · exact h.1 e he
      · rw [List.mem_singleton.mp he]
        exact hn

/-- A new child changes the object. -/
theorem set_ne (h : o.Below bound) (name : Name) : o.set name bound ≠ o := by
  intro he
  unfold DirObject.set at he
  split at he
  · have hproto : some bound = o.proto := congrArg DirObject.proto he
    exact Nat.lt_irrefl _ (h.2 bound hproto.symm)
  · split at he
    · next hmem =>
        obtain ⟨e, hentry, rfl⟩ := List.mem_map.mp hmem
        have hin : (e.1, bound) ∈ o.entries := by
          rw [← congrArg DirObject.entries he]
          exact List.mem_map.mpr ⟨e, hentry, if_pos rfl⟩
        exact Nat.lt_irrefl _ (h.1 _ hin)
    · have hlen := congrArg (fun o => o.entries.length) he
      simp at hlen

end DirObject.Below

theorem contents_setContents (nd : Node) (c : DirObject) :
    (nd.setContents c).contents = c ∨ (nd.setContents c).contents = nd.contents := by
  unfold Node.setContents
  split
  · exact .inl rfl
  · exact .inr rfl

/-- A set of nodes that no lookup from one of them leaves. -/
structure FS.Closed (s : FS) (P : NodeId → Prop) : Prop where
  root : P s.root
  chain : ∀ h, ∀ n ∈ s.nameTable h, P n
  parent : ∀ n, P n → P (s.node n).parent
  mounted : ∀ n, P n → ∀ m, (s.node n).mounted = some m → P (s.mount m).root

namespace FS.Closed

variable {s : FS} {P : NodeId → Prop} {n : NodeId}

theorem crossMount (h : s.Closed P) (hn : P n) : P (s.crossMount n) := by
  unfold FS.crossMount
  split
  · next m hm => exact h.mounted n hn m hm
  · exact hn

variable [Build]

theorem hashLookup (h : s.Closed P) {parent : NodeId} {name : Name}
    (hl : s.hashLookup parent name = some n) : P n :=
  h.chain _ n (List.mem_of_find?_eq_some hl)

theorem lookupNode (h : s.Closed P) {parent : NodeId} {name : Name}
    (hl : s.lookupNode parent name = .ok n) : P n := by
  unfold FS.lookupNode at hl
  split at hl
  · cases hl
  · split at hl
    · next hfound =>
        cases hl
        exact h.hashLookup hfound
    · cases hl

/-- The result of a walk, if it has a node, has one of the set. -/
theorem walk (h : s.Closed P) (o : FS.LookupOpts) (ps : List Name) (path : Path) {cur : NodeId} (hcur : P cur)
    (hl : s.walk o ps path cur = .done (.ok l)) (hn : l.node = some n) : P n := by
  induction ps generalizing path cur with
  | nil =>
    cases hl
    cases hn
    exact hcur
  | cons p rest ih =>
    unfold FS.walk at hl
    dsimp only at hl
    split at hl
    · cases hl
      cases hn
      exact hcur
    · split at hl
      · exact ih path hcur hl
      · split at hl
        · split at hl
          · cases hl
          · exact ih _ (h.parent cur hcur) hl
        · split at hl
          · split at hl
            · cases hl
              cases hn
            · cases hl
          · next child hchild =>
              have hin := h.lookupNode hchild
              have hcross : P (if !rest.isEmpty ∨ o.follow_mount then s.crossMount child
                  else child) := by
                split
                · exact h.crossMount hin
                · exact hin
              split at hl
              · split at hl
                · cases hl
                · exact ih _ hcross hl
              · exact ih _ hcross hl

theorem upLoop (h : s.Closed P) (o : FS.LookupOpts) (k : Nat) (path : Path)
    (hl : s.upLoop o k path = .done (.ok l)) (hn : l.node = some n) : P n := by
  induction k generalizing path with
  | zero => cases hl
  | succ k ih =>
    unfold FS.upLoop at hl
    split at hl
    · exact ih _ hl
    · exact h.walk o _ _ h.root hl hn

theorem linkLoop (h : s.Closed P) (o : FS.LookupOpts) (k : Nat) (path : Path) (hl : s.linkLoop o k path = .ok l)
    (hn : l.node = some n) : P n := by
  induction k generalizing path with
  | zero => cases hl
  | succ k ih =>
    unfold FS.linkLoop at hl
    split at hl
    · next hup =>
        subst hl
        exact h.upLoop o _ _ hup hn
    · exact ih _ hl
    · cases hl

theorem lookupPath (h : s.Closed P) {o : FS.LookupOpts} (hl : s.lookupPath path o = .ok l)
    (hn : l.node = some n) : P n := by
  unfold FS.lookupPath at hl
  split at hl
  · cases hl
  · exact h.linkLoop o _ _ hl hn

theorem lookupParent (h : s.Closed P) (hl : s.lookupParent path = .ok n) : P n := by
  unfold FS.lookupParent FS.lookupPathNode at hl
  split at hl
  · cases hl
  · next hpath =>
      cases hl
      exact h.lookupPath hpath rfl
  · cases hl

end FS.Closed

structure FS.Allocated (s : FS) : Prop where
  root : s.root < s.nextInode
  chain : ∀ h, ∀ n ∈ s.nameTable h, n < s.nextInode
  parent : ∀ n < s.nextInode, (s.node n).parent < s.nextInode
  mounted : ∀ n < s.nextInode, ∀ m, (s.node n).mounted = some m → (s.mount m).root < s.nextInode
  child : ∀ n < s.nextInode, (s.node n).contents.Below s.nextInode
  stream : ∀ fd st, s.getStream fd = some st → st.node < s.nextInode

namespace FS.Allocated

variable {s : FS} {n : NodeId}

/-- Nothing that is looked up has changed, and the streams are on nodes that were made. -/
theorem of_tree {s' : FS} (h : s.Allocated) (hroot : s'.root = s.root)
    (hnext : s'.nextInode = s.nextInode) (hchain : s'.nameTable = s.nameTable)
    (hmount : s'.mount = s.mount)
    (hnode : ∀ n, (s'.node n).parent = (s.node n).parent ∧ (s'.node n).mounted = (s.node n).mounted ∧
      ((s'.node n).contents = (s.node n).contents ∨ (s'.node n).contents = ⟨[], none⟩))
    (hstream : ∀ fd st, s'.getStream fd = some st → st.node < s.nextInode) : s'.Allocated where
  root := by rw [hroot, hnext]; exact h.root
  chain k n hn := by
    rw [hchain] at hn
    rw [hnext]
    exact h.chain k n hn
  parent n hn := by
    rw [hnext] at hn ⊢
    rw [(hnode n).1]
    exact h.parent n hn
  mounted n hn m hm := by
    rw [hnext] at hn ⊢
    rw [(hnode n).2.1] at hm
    rw [hmount]
    exact h.mounted n hn m hm
  child n hn := by
    rw [hnext] at hn ⊢
    rcases (hnode n).2.2 with he | he
    · rw [he]
      exact h.child n hn
    · rw [he]
      exact .empty
  stream fd st hst := by
    rw [hnext]
    exact hstream fd st hst

/-! ## Lookup -/

theorem closed (h : s.Allocated) : s.Closed (· < s.nextInode) :=
  ⟨h.root, h.chain, h.parent, h.mounted⟩

variable [Build]

theorem lookupPath (h : s.Allocated) {o : FS.LookupOpts} (hl : s.lookupPath path o = .ok l)
    (hn : l.node = some n) : n < s.nextInode :=
  h.closed.lookupPath hl hn

theorem lookupParent (h : s.Allocated) (hl : s.lookupParent path = .ok n) :
    n < s.nextInode := h.closed.lookupParent hl

end FS.Allocated

/-! ## The calls that open and close -/

variable {s : FS}

theorem reads_query {α : Type} (f : FS → Except Errno α) (s : FS) :
    Reads s (query f) fun a => f s = .ok a := by
  intro s' r h
  cases h
  exact ⟨rfl, fun _ ha => ha⟩

theorem reads_throwIf (e : Option Errno) (s : FS) : Reads s (throwIf e) fun _ => e = none := by
  intro s' r h
  cases e with
  | none =>
    cases h
    exact ⟨rfl, fun _ _ => rfl⟩
  | some e =>
    cases h
    exact ⟨rfl, fun _ ha => nomatch ha⟩

/-- A stream on a node that was made. -/
theorem FS.Allocated.setStream (h : s.Allocated) (fd : Nat) {st : Option Stream}
    (hst : ∀ st', st = some st' → st'.node < s.nextInode) : (s.setStream fd st).Allocated := by
  refine h.of_tree rfl rfl rfl rfl (fun _ => ⟨rfl, rfl, .inl rfl⟩) fun fd' st' h' => ?_
  rw [FS.getStream_setStream] at h'
  split at h'
  · exact hst st' h'
  · exact h.stream fd' st' h'

theorem FS.Allocated.newShared (h : s.Allocated) (sh : Shared) : (s.newShared sh).Allocated :=
  h.of_tree rfl rfl rfl rfl (fun _ => ⟨rfl, rfl, .inl rfl⟩) h.stream

/-- A node gets other data or permissions. -/
theorem FS.Allocated.setNode (h : s.Allocated) (n : NodeId) {nd : Node}
    (hp : nd.parent = (s.node n).parent) (hm : nd.mounted = (s.node n).mounted)
    (hc : nd.contents = (s.node n).contents ∨ nd.contents = ⟨[], none⟩) :
    (s.setNode n nd).Allocated := by
  refine h.of_tree rfl rfl rfl rfl (fun m => ?_) h.stream
  simp only [FS.setNode, Function.update_apply]
  split
  · next he => exact he ▸ ⟨hp, hm, hc⟩
  · exact ⟨rfl, rfl, .inl rfl⟩

theorem allocated_setFile (n : NodeId) (f : FileData) : Within (Keeps FS.Allocated) (setFile n f) :=
  .modify fun _ h => h.setNode n rfl rfl (.inr rfl)

theorem allocated_doTruncate (n : NodeId) (len : Nat) :
    Within (Keeps FS.Allocated) (doTruncate n len) := by
  refine .bind .gets fun s => ?_
  split
  · exact .fail
  · exact .bind (within_throwIf _) fun _ => allocated_setFile n _
  · exact .fail

theorem allocated_closeStream (fd : Nat) : Within (Keeps FS.Allocated) (closeStream fd) :=
  .modify fun _ h => h.setStream fd fun _ hst => nomatch hst

theorem allocated_createStream (hn : n < s.nextInode) (path : Path) (flags : Flags) (seekable : Bool)
    (ops : StreamOps) : Leads (Keeps FS.Allocated) s (createStream n path flags seekable ops) := by
  intro s' r h hs
  rw [createStream_apply] at h
  split at h
  · cases h
    exact hs
  · next fd _ =>
      cases h
      refine (hs.newShared _).setStream fd fun st' he => ?_
      cases he
      exact hn

/-- The stream at the descriptor, on the same node. -/
theorem allocated_openStream (fd : Nat) (n : NodeId) :
    Within (Keeps FS.Allocated) (openStream fd n) := by
  refine .bind .gets fun s => ?_
  split
  · split
    · exact .fail
    · refine .bind (.modify fun t ht => ht.setStream fd fun st' he => ?_) fun _ => within_throwIf _
      obtain ⟨st, hst, rfl⟩ := Option.map_eq_some_iff.mp he
      exact ht.stream fd st hst
  · exact .pure

theorem allocated_dup (fd : Nat) : Within (Keeps FS.Allocated) (JsFs.dup fd) := by
  refine .keeps fun s hs => .read (reads_stream s fd) fun st hst => ?_
  refine .read (reads_query _ s) fun fd' _ => .bind ?_ fun _ _ _ => .pure
  intro s' r h _
  cases h
  refine hs.setStream fd' fun st' he => ?_
  cases he
  exact hs.stream fd st hst

variable [Build]

theorem mem_hashAddNode {m : NodeId} {h : Nat} (hm : m ∈ (s.hashAddNode n).nameTable h) :
    m = n ∨ m ∈ s.nameTable h := by
  unfold FS.hashAddNode FS.setChain at hm
  simp only [Function.update_apply] at hm
  split at hm
  · next he =>
      rw [he]
      exact List.mem_cons.mp hm
  · exact .inr hm

theorem initial_chain (h : Nat) : ∀ n ∈ FS.initial.nameTable h, n < 2 := by
  intro n hn
  rcases mem_hashAddNode hn with rfl | hn
  · exact Nat.one_lt_two
  · rcases mem_hashAddNode hn with rfl | hn
    · exact Nat.zero_lt_succ 1
    · cases hn

theorem allocated_initial : FS.initial.Allocated where
  root := Nat.zero_lt_succ 1
  chain := initial_chain
  parent n hn := by
    match n, hn with
    | 0, _ => exact Nat.zero_lt_succ 1
    | 1, _ => exact Nat.one_lt_two
  mounted n hn m hm := by
    match n, hn with
    | 0, _ => cases hm
    | 1, _ => cases hm
  child n hn := by
    match n, hn with
    | 0, _ => exact .empty
    | 1, _ => exact .empty
  stream fd st hst := nomatch hst

/-! ## A new node -/

/-- One node more, in a directory. -/
def FS.grow (s : FS) (parent : NodeId) (name : Name) (data : Data) (perm : Mode) : FS :=
  (s.createNode (some parent) name data perm).setChild parent name s.nextInode

theorem createNode_apply (parent : NodeId) (name : Name) (data : Data) (perm : Mode) (s : FS) :
    MEMFS.createNode parent name data perm s =
      some (s.grow parent name data perm, .ok s.nextInode) := rfl

section Grow

variable {parent : NodeId} (hp : parent < s.nextInode) (name : Name) (data : Data) (perm : Mode)

include hp

theorem grow_node (n : NodeId) : (s.grow parent name data perm).node n =
    if n = s.nextInode then ⟨parent, name, data, perm, (s.node parent).mount, none⟩
    else if n = parent then
      (s.node parent).setContents ((s.node parent).contents.set name s.nextInode)
    else s.node n := by
  have hne : parent ≠ s.nextInode := Nat.ne_of_lt hp
  simp only [FS.grow, FS.setChild, FS.setNode, FS.createNode, FS.hashAddNode, FS.setChain,
    Function.update_apply]
  by_cases hn : n = parent
  · simp [hn, hne]
  · simp [hn]

/-- The links of the nodes that were there stay. -/
theorem grow_links (hn : n ≠ s.nextInode) :
    ((s.grow parent name data perm).node n).parent = (s.node n).parent ∧
      ((s.grow parent name data perm).node n).mounted = (s.node n).mounted := by
  rw [grow_node hp, if_neg hn]
  split
  · next he =>
      subst he
      unfold Node.setContents
      split <;> exact ⟨rfl, rfl⟩
  · exact ⟨rfl, rfl⟩

omit hp in
theorem grow_nameTable : (s.grow parent name data perm).nameTable =
    Function.update s.nameTable (hashName parent name)
      (s.nextInode :: s.nameTable (hashName parent name)) := by
  simp [FS.grow, FS.setChild, FS.setNode, FS.createNode, FS.hashAddNode, FS.setChain, FS.hashOf]

theorem FS.Allocated.grow (hs : s.Allocated) (hd : ∀ c, data = .dir c → c = ⟨[], none⟩) :
    (s.grow parent name data perm).Allocated := by
  have hlt : ∀ {m : NodeId}, m < s.nextInode → m < s.nextInode + 1 := fun hm => Nat.lt_succ_of_lt hm
  have hold : ∀ {n : NodeId}, n < s.nextInode + 1 → n ≠ s.nextInode → n < s.nextInode :=
    fun hn hne => Nat.lt_of_le_of_ne (Nat.le_of_lt_succ hn) hne
  refine ⟨hlt hs.root, fun k n hn => ?_, fun n hn => ?_, fun n hn m hm => ?_, fun n hn => ?_,
    fun fd st hst => ?_⟩
  · rw [grow_nameTable, Function.update_apply] at hn
    split at hn
    · rcases List.mem_cons.mp hn with rfl | hn
      · exact Nat.lt_succ_self _
      · exact hlt (hs.chain _ n hn)
    · exact hlt (hs.chain _ n hn)
  · by_cases hnew : n = s.nextInode
    · rw [grow_node hp, if_pos hnew]
      exact hlt hp
    · rw [(grow_links hp name data perm hnew).1]
      exact hlt (hs.parent n (hold hn hnew))
  · by_cases hnew : n = s.nextInode
    · rw [grow_node hp, if_pos hnew] at hm
      cases hm
    · rw [(grow_links hp name data perm hnew).2] at hm
      exact hlt (hs.mounted n (hold hn hnew) m hm)
  · rw [grow_node hp]
    split
    · unfold Node.contents
      split
      · next c hc =>
          rw [hd c hc]
          exact .empty
      · exact .empty
    · next hnew =>
        have hbelow := (hs.child n (hold hn hnew)).mono (Nat.le_succ s.nextInode)
        split
        · next he =>
            subst he
            rcases contents_setContents (s.node n) ((s.node n).contents.set name s.nextInode) with h | h
            · rw [h]
              exact hbelow.set name (Nat.lt_succ_self _)
            · rw [h]
              exact hbelow
        · exact hbelow
  · exact hlt (hs.stream fd st hst)

end Grow

end JsFs
