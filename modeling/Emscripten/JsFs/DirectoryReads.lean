-- SUMMARY: Reading a directory of MEMFS with getdents64 while its entries come and go: when every entry is returned once.
import Mathlib.Data.List.Nodup
import Emscripten.JsFs.LinkText
import Emscripten.JsFs.NameTableRuns

/-!
# Directory reads

The first call on a stream keeps the names of the directory's entries, and the position counts records. Each
name is looked up again when its record is written, and an entry that is gone by then makes the call fail, as
does every later one. A buffer without room for a record is taken for the end of the directory.
-/

namespace JsFs.DirectoryReads

open Machine Unicode LinkText

section Reads

variable [Build]

/-! ## Records -/

def struct_size : Nat := 280

def DT_CHR : Nat := 2
def DT_DIR : Nat := 4
def DT_REG : Nat := 8
def DT_LNK : Nat := 10

structure Dirent where
  d_ino : NodeId
  d_off : Nat
  d_reclen : Nat
  d_type : Nat
  d_name : List UInt8
deriving DecidableEq

/-- What `stringToUTF8` writes into the field of 256 bytes, without the zero byte. -/
def nameField (name : Name) : List UInt8 :=
  let (n, field) := stringToUTF8Array (name.flatMap utf16) (List.replicate 256 0) 0 256
  field.take n

def direntType (n : Node) : Nat :=
  if n.isChrdev then DT_CHR else if n.isDir then DT_DIR else if n.isLink then DT_LNK else DT_REG

/-- The order of `Object.keys`, in which keys like numbers come first. -/
abbrev KeyOrder := { order : List Name → List Name // ∀ keys, (order keys).Perm keys }

/-! ## The call -/

/-- An open stream on a directory. -/
structure DirStream where
  node : NodeId
  path : Path
  getdents : Option (List Name)
  position : Nat

/-- `FS.readdir` of a directory of MEMFS. -/
def readdir (order : KeyOrder) (fs : FS) (path : Path) : Except Errno (List Name) :=
  match fs.lookupPathNode path { FS.LookupOpts.default with follow := true } with
  | .error e => .error e
  | .ok n =>
    if (fs.node n).isDir then .ok (dot :: dotDot :: order.1 (fs.node n).contents.keys) else .error .ENOTDIR

/-- The identity and the type that a turn of the loop finds for a name; there are none where the name is
passed over. -/
def findEntry (fs : FS) (stream : DirStream) (name : Name) : Except Errno (Option (NodeId × Nat)) :=
  if name = dot then .ok (some (stream.node, DT_DIR))
  else if name = dotDot then
    match fs.lookupParent stream.path with
    | .error e => .error e
    | .ok n => .ok (some (n, DT_DIR))
  else
    match fs.lookupNode stream.node name with
    | .error e => if e = .EINVAL then .ok none else .error e
    | .ok n => .ok (some (n, direntType (fs.node n)))

/-- The loop over the names from an index on. -/
def writeRecords (fs : FS) (stream : DirStream) : Nat → List Name → Except Errno (List Dirent)
  | _, [] => .ok []
  | idx, name :: names =>
    match findEntry fs stream name with
    | .error e => .error e
    | .ok found =>
      match writeRecords fs stream (idx + 1) names with
      | .error e => .error e
      | .ok records =>
        let record := found.map fun (id, type) => ⟨id, (idx + 1) * struct_size, struct_size, type, nameField name⟩
        .ok (record.toList ++ records)

/-- The names of the stream, which the first call fetches. -/
def names (order : KeyOrder) (fs : FS) (stream : DirStream) : Except Errno (List Name) :=
  match stream.getdents with
  | some names => .ok names
  | none => readdir order fs stream.path

/-- `__syscall_getdents64`: the stream, and the records that are written where nothing is thrown. -/
def __syscall_getdents64 (order : KeyOrder) (fs : FS) (stream : DirStream) (count : Int) :
    DirStream × Except Errno (List Dirent) :=
  match names order fs stream with
  | .error e => (stream, .error e)
  | .ok names =>
    let stream := { stream with getdents := some names }
    let startIdx := stream.position / struct_size
    let endIdx := min (names.length : Int) (startIdx + count / struct_size)
    let turns := (endIdx - startIdx).toNat
    match writeRecords fs stream startIdx ((names.drop startIdx).take turns) with
    | .error e => (stream, .error e)
    | .ok records => ({ stream with position := (startIdx + turns) * struct_size }, .ok records)

/-- `fd_seek` to an offset from the start. -/
def fd_seek (stream : DirStream) (offset : Nat) : DirStream :=
  let stream := { stream with position := offset }
  if stream.getdents.isSome ∧ offset = 0 then { stream with getdents := none } else stream

/-! ## Runs -/

/-- An entry of the directory has the name, as lookups see it. -/
def Present (fs : FS) (d : NodeId) (name : Name) : Prop :=
  name ≠ ['/'] ∧ ∃ n, fs.hashLookup d name = some n ∧ (fs.node n).name = name

/-- The file system and one stream. Ghost: for each position in the directory the last record that was
returned for it, the names that were there at the first call and ever since, and what the last call since a
seek returned. -/
structure DirRun where
  tree : TreeRun
  stream : DirStream
  log : List Dirent
  since : Name → Prop
  last : Option (Except Errno Nat)

inductive Action
  | tree (c : TreeCall)
  | getdents (count : Int)
  | seek (offset : Nat)

namespace DirRun

def start (d : NodeId) (path : Path) : DirRun := ⟨.start, ⟨d, path, none, 0⟩, [], fun _ => False, none⟩

def step (order : KeyOrder) (s : DirRun) : Action → Option DirRun
  | .tree c => (s.tree.step c).map fun t =>
    { s with tree := t, since := fun name => s.since name ∧ Present t.fs s.stream.node name }
  | .getdents count =>
    let (stream, r) := __syscall_getdents64 order s.tree.fs s.stream count
    let since := if s.stream.getdents.isNone then Present s.tree.fs s.stream.node else s.since
    match r with
    | .error e => some { s with stream, since, last := some (.error e) }
    | .ok records =>
      let startIdx := s.stream.position / struct_size
      let log := s.log.take startIdx ++ records ++ s.log.drop (startIdx + records.length)
      some { s with stream, since, log, last := some (.ok (records.length * struct_size)) }
  | .seek offset => some { s with stream := fd_seek s.stream offset, last := none }

/-- The records in front of the stream's position. -/
def listing (s : DirRun) : List Dirent := s.log.take (s.stream.position / struct_size)

end DirRun

/-! ## The condition -/

/-- The path that gets a name. -/
def named : TreeCall → Option Path
  | .mknod path _ _ | .mkdir path _ | .symlink _ path | .rename _ path => some path
  | _ => none

/-- The name can be delivered: the directory can be searched and the entry is there, or the path still leads to
the parent; and the name fits into the field. -/
structure Deliverable (fs : FS) (stream : DirStream) (name : Name) : Prop where
  parent : name = dotDot → ∃ p, fs.lookupParent stream.path = .ok p
  search : name ≠ dot → name ≠ dotDot → fs.mayLookup stream.node = none
  found : name ≠ dot → name ≠ dotDot → ∃ n, fs.hashLookup stream.node name = some n
  short : (name.flatMap String.utf8EncodeChar).length ≤ 255

/-- Calls on the tree store names as they are spelled, and never `.` or `..`; reads have room for a record and
come only to entries that can be delivered; seeks go to offsets that were returned. -/
def Proper (order : KeyOrder) (s : DirRun) : Action → Prop
  | .tree c => s.tree.NamesStored c ∧
      ∀ path, named c = some path → Path.basename path ≠ dot ∧ Path.basename path ≠ dotDot
  | .getdents count => (struct_size : Int) ≤ count ∧
      (s.stream.getdents = none → s.tree.fs.lookupPathNode s.stream.path
        { FS.LookupOpts.default with follow := true } = .ok s.stream.node ∧
        (s.tree.fs.node s.stream.node).isDir = true) ∧
      ∀ ns, names order s.tree.fs s.stream = .ok ns →
        ∀ name ∈ (ns.drop (s.stream.position / struct_size)).take (count / struct_size).toNat,
          Deliverable s.tree.fs s.stream name
  | .seek offset => ∃ r ∈ s.log, r.d_off = offset

/-! ## Names in records -/

omit [Build] in
theorem nameField_eq {name : Name} (h : (name.flatMap String.utf8EncodeChar).length ≤ 255) :
    nameField name = name.flatMap String.utf8EncodeChar := by
  have hbytes : (codePoints (name.flatMap utf16)).flatMap utf8 = name.flatMap String.utf8EncodeChar :=
    encode_utf16 name
  have hall : fitting 255 (codePoints (name.flatMap utf16)) = name.flatMap String.utf8EncodeChar := by
    have hle := @le_length_fitting 255 (codePoints (name.flatMap utf16)).length (codePoints (name.flatMap utf16))
    rw [List.take_length, hbytes] at hle
    have hprefix := fitting_isPrefix 255 (codePoints (name.flatMap utf16))
    rw [hbytes] at hprefix
    exact hprefix.eq_of_length (Nat.le_antisymm hprefix.length_le (hle h))
  have hwrite : stringToUTF8Array (name.flatMap utf16) (List.replicate 256 0) 0 256 =
      ((writeUnits 255 (name.flatMap utf16) 0 (List.replicate 256 0)).1 - 0,
        (writeUnits 255 (name.flatMap utf16) 0 (List.replicate 256 0)).2.set
          (writeUnits 255 (name.flatMap utf16) 0 (List.replicate 256 0)).1 0) :=
    if_neg fun hzero => hzero (by decide)
  unfold nameField
  rw [hwrite, writeUnits_eq, hall]
  apply List.ext_getElem?
  intro i
  dsimp only
  rw [List.getElem?_take, List.getElem?_set, Nat.zero_add, Nat.sub_zero, Heap.getElem?_put, List.length_replicate,
    Nat.zero_add, Nat.sub_zero]
  split
  · next hlt => rw [if_neg (by omega), if_pos ⟨Nat.zero_le i, hlt, by omega⟩]
  · next hge => rw [List.getElem?_eq_none (Nat.le_of_not_lt hge)]

omit [Build] in
/-- Names with the same bytes are the same. -/
theorem bytes_injective : Function.Injective fun name : Name => name.flatMap String.utf8EncodeChar := by
  intro a b h
  have harray : a.utf8Encode = b.utf8Encode := congrArg List.toByteArray h
  apply String.ofList_injective
  exact String.toByteArray_inj.mp harray

/-! ## Names in directories -/

/-- A directory has every name once, and neither `.` nor `..`. -/
structure Listable (o : DirObject) : Prop where
  once : o.keys.Nodup
  own : ∀ k ∈ o.keys, k ≠ dot ∧ k ≠ dotDot

namespace Listable

variable {o : DirObject} {name : Name}

omit [Build] in
theorem nil : Listable ⟨[], none⟩ := ⟨List.nodup_nil, fun _ hk => nomatch hk⟩

omit [Build] in
theorem delete (h : Listable o) (name : Name) : Listable (o.delete name) := by
  have hsub : ((o.delete name).keys).Sublist o.keys := List.Sublist.map _ List.filter_sublist
  exact ⟨h.once.sublist hsub, fun k hk => h.own k (hsub.subset hk)⟩

omit [Build] in
theorem set (h : Listable o) (hdot : name ≠ dot) (hdotDot : name ≠ dotDot) (n : NodeId) :
    Listable (o.set name n) := by
  have hreplaced : ∀ es : List (Name × NodeId), (es.map fun e => if e.1 = name then (name, n) else e).map Prod.fst =
      es.map Prod.fst := by
    intro es
    rw [List.map_map]
    apply List.map_congr_left
    intro e _
    simp only [Function.comp_apply]
    split
    · next he => exact he.symm
    · rfl
  have hkeys : (o.set name n).keys = o.keys ∨ name ∉ o.keys ∧ (o.set name n).keys = o.keys ++ [name] := by
    unfold DirObject.set DirObject.keys
    split
    · exact .inl rfl
    · split
      · exact .inl (hreplaced o.entries)
      · next hfree => exact .inr ⟨hfree, List.map_append⟩
  cases hkeys with
  | inl hsame => exact ⟨hsame.symm ▸ h.once, fun k hk => h.own k (hsame ▸ hk)⟩
  | inr hmore =>
    obtain ⟨hfree, hkeys⟩ := hmore
    constructor
    · rw [hkeys, List.nodup_append]
      refine ⟨h.once, List.pairwise_singleton _ _, fun k hk k' hk' hsame => ?_⟩
      rw [List.mem_singleton] at hk'
      exact hfree (hk' ▸ hsame ▸ hk)
    · intro k hk
      rw [hkeys] at hk
      cases List.mem_append.mp hk with
      | inl hold => exact h.own k hold
      | inr hnew => exact List.mem_singleton.mp hnew ▸ ⟨hdot, hdotDot⟩

end Listable

/-- Every directory has every name once. -/
def AllListable (s : FS) : Prop := ∀ d, Listable (s.node d).contents

variable {s t : FS}

omit [Build] in
theorem AllListable.deleteChild (h : AllListable s) (p : NodeId) (name : Name) :
    AllListable (s.deleteChild p name) := by
  intro d
  unfold FS.deleteChild
  rw [contents_update]
  split
  · exact (h p).delete name
  · exact h d

omit [Build] in
theorem AllListable.setChild (h : AllListable s) (p : NodeId) {name : Name} (hdot : name ≠ dot)
    (hdotDot : name ≠ dotDot) (n : NodeId) : AllListable (s.setChild p name n) := by
  intro d
  unfold FS.setChild
  rw [contents_update]
  split
  · exact (h p).set hdot hdotDot n
  · exact h d

/-- A call that gives no node the name `.` or `..` keeps the names of directories as they should be. -/
theorem AllListable.step {c : TreeCall} (h : AllListable s) {gone : List MountId} (hf : s.Family gone)
    (hnamed : ∀ path, named c = some path → Path.basename path ≠ dot ∧ Path.basename path ≠ dotDot)
    (hs : s.TreeStep c t) : AllListable t := by
  cases hs with
  | same _ hun => exact h
  | @grown c path hmade parent hp hmay data perm hdata =>
    have hname : named c = some path := by cases c <;> cases hmade <;> rfl
    obtain ⟨hdot, hdotDot⟩ := hnamed path hname
    have hdir := (free_of_mayCreate hmay).1
    intro d
    rw [grow_node (hf.lt_of_isDir hdir)]
    split
    · -- the new node is an empty directory, or none
      unfold Node.contents
      split
      · next o ho => exact hdata o ho ▸ Listable.nil
      · exact Listable.nil
    · split
      · rw [Node.contents_setContents_of_isDir _ hdir]
        exact (h parent).set hdot hdotDot _
      · exact h d
  | removed hremoved hp hn hbusy hempty => exact h.deleteChild _ _
  | readded hr => exact h
  | @moved old_path new_path old_dir old new_dir new_node hr hempty =>
    obtain ⟨hdot, hdotDot⟩ := hnamed new_path rfl
    intro d
    rw [FS.move_contents]
    exact ((h.deleteChild _ _).setChild _ hdot hdotDot _) d
  | @mounted mountpoint path n hl hfree hdir =>
    intro d
    rw [FS.addMount_eq (hf.lt_of_isDir hdir), (FS.enlist_same _ _ _).1]
    simp only [FS.withMount, Function.update_apply]
    split
    · next hd => exact hd ▸ h d
    · split
      · exact Listable.nil
      · exact h d
  | @unmounted mountpoint path n m hl hm =>
    intro d
    rw [FS.removeMount_eq, (FS.unlist_same _ _ _).1, FS.withoutMount_node]
    split
    · next hd => exact hd ▸ h d
    · exact h d
  | entered hl hdir => exact h

/-! ## One call -/

/-- What a record says of the entry with this index. -/
def Records (ns : List Name) (i : Nat) (r : Dirent) : Prop :=
  ∃ name, ns[i]? = some name ∧ r.d_name = name.flatMap String.utf8EncodeChar ∧ r.d_off = (i + 1) * struct_size

variable {fs : FS} {stream : DirStream} {order : KeyOrder}

theorem findEntry_of_deliverable {name : Name} (h : Deliverable fs stream name) :
    ∃ found, findEntry fs stream name = .ok (some found) := by
  unfold findEntry
  split
  · exact ⟨_, rfl⟩
  · next hdot =>
      split
      · next hdotDot =>
          obtain ⟨p, hp⟩ := h.parent hdotDot
          rw [hp]
          exact ⟨_, rfl⟩
      · next hdotDot =>
          obtain ⟨n, hn⟩ := h.found hdot hdotDot
          rw [lookupNode_ok_iff.mpr ⟨h.search hdot hdotDot, hn⟩]
          exact ⟨_, rfl⟩

/-- Entries that can be delivered get a record each. -/
theorem writeRecords_ok (idx : Nat) {ns : List Name} (h : ∀ name ∈ ns, Deliverable fs stream name) :
    ∃ rs, writeRecords fs stream idx ns = .ok rs ∧ rs.length = ns.length ∧ ∀ i r, rs[i]? = some r →
      ∃ name, ns[i]? = some name ∧ r.d_name = name.flatMap String.utf8EncodeChar ∧
        r.d_off = (idx + i + 1) * struct_size := by
  induction ns generalizing idx with
  | nil => exact ⟨[], rfl, rfl, fun i r hr => nomatch hr⟩
  | cons name ns ih =>
    have hname := h name (List.mem_cons_self ..)
    obtain ⟨found, hfound⟩ := findEntry_of_deliverable hname
    obtain ⟨rs, hrs, hlen, hrecords⟩ := ih (idx + 1) fun name hin => h name (List.mem_cons_of_mem _ hin)
    refine ⟨⟨found.1, (idx + 1) * struct_size, struct_size, found.2, nameField name⟩ :: rs, ?_, ?_, ?_⟩
    · unfold writeRecords
      rw [hfound, hrs]
      rfl
    · rw [List.length_cons, hlen, List.length_cons]
    · intro i r hr
      cases i with
      | zero =>
        cases hr
        exact ⟨name, rfl, nameField_eq hname.short, rfl⟩
      | succ i =>
        obtain ⟨name', hname', hbytes, hoff⟩ := hrecords i r hr
        have hidx : idx + (i + 1) + 1 = idx + 1 + i + 1 := by omega
        exact ⟨name', hname', hbytes, hidx ▸ hoff⟩

omit [Build] in
theorem getElem?_replaced {α : Type} {log rs : List α} {k : Nat} (hk : k ≤ log.length) (i : Nat) :
    (log.take k ++ rs ++ log.drop (k + rs.length))[i]? =
      if k ≤ i ∧ i < k + rs.length then rs[i - k]? else log[i]? := by
  have htake : (log.take k).length = k := List.length_take_of_le hk
  have hfront : (log.take k ++ rs).length = k + rs.length := by rw [List.length_append, htake]
  cases Nat.lt_or_ge i (k + rs.length) with
  | inl hlt =>
    rw [List.getElem?_append_left (hfront.symm ▸ hlt)]
    cases Nat.lt_or_ge i k with
    | inl hbefore =>
      rw [List.getElem?_append_left (htake.symm ▸ hbefore), if_neg (by omega), List.getElem?_take, if_pos hbefore]
    | inr hin => rw [List.getElem?_append_right (htake.symm ▸ hin), htake, if_pos ⟨hin, hlt⟩]
  | inr hge =>
    rw [List.getElem?_append_right (hfront.symm ▸ hge), hfront, if_neg (by omega), List.getElem?_drop]
    congr 1
    omega

/-! ## The invariant -/

/-- The names that the stream keeps: each once, with all that were there ever since. -/
structure Covers (ns : List Name) (since : Name → Prop) : Prop where
  once : ns.Nodup
  dot : dot ∈ ns
  dotDot : dotDot ∈ ns
  since : ∀ name, since name → name ∈ ns

structure Kept (s : DirRun) : Prop where
  agrees : s.tree.Agrees
  listable : AllListable s.tree.fs
  position : ∃ k ≤ s.log.length, s.stream.position = k * struct_size
  fresh : s.stream.getdents = none → s.log = []
  covers : ∀ ns, s.stream.getdents = some ns → Covers ns s.since
  records : ∀ ns, s.stream.getdents = some ns → ∀ i r, s.log[i]? = some r → Records ns i r
  succeeds : ∀ e, s.last ≠ some (.error e)
  complete : s.last = some (.ok 0) → ∃ ns, s.stream.getdents = some ns ∧ s.stream.position = ns.length * struct_size

variable {s t : DirRun}

omit [Build] in
/-- The log is no longer than the directory was. -/
theorem length_log_le {ns : List Name} {log : List Dirent} (h : ∀ i r, log[i]? = some r → Records ns i r) :
    log.length ≤ ns.length := by
  apply Nat.le_of_not_lt
  intro hlt
  obtain ⟨name, hname, -⟩ := h ns.length _ (List.getElem?_eq_getElem hlt)
  rw [List.getElem?_eq_none (Nat.le_refl _)] at hname
  cases hname

/-- What a directory lists covers what is found in it. -/
theorem covers_keys (h : t.tree.Agrees) (hlist : AllListable t.tree.fs) (d : NodeId) :
    Covers (dot :: dotDot :: order.1 (t.tree.fs.node d).contents.keys) (Present t.tree.fs d) := by
  have hperm := order.2 (t.tree.fs.node d).contents.keys
  have hown : ∀ k ∈ order.1 (t.tree.fs.node d).contents.keys, k ≠ dot ∧ k ≠ dotDot :=
    fun k hk => (hlist d).own k (hperm.mem_iff.mp hk)
  constructor
  · rw [List.nodup_cons, List.nodup_cons, List.mem_cons, not_or]
    exact ⟨⟨by decide, fun hin => (hown _ hin).1 rfl⟩, fun hin => (hown _ hin).2 rfl,
      hperm.nodup_iff.mpr (hlist d).once⟩
  · exact List.mem_cons_self ..
  · exact List.mem_cons_of_mem _ (List.mem_cons_self ..)
  · rintro name ⟨hslash, n, hn, hname⟩
    obtain ⟨hin, hnamed⟩ := hashLookup_some hn
    have hlisted : t.tree.fs.Listed n := by
      cases h.indexed.placed _ n hin with
      | inr hlisted => exact hlisted
      | inl hroot =>
        cases (h.indexed.root n (h.indexed.lt _ n hin) hroot).2 with
        | inl hrootName => exact absurd (hname.symm.trans hrootName) hslash
        | inr hlisted => exact hlisted
    unfold FS.Listed at hlisted
    rw [hnamed.1, hname] at hlisted
    have hkey : name ∈ (t.tree.fs.node d).contents.keys := List.mem_map.mpr ⟨_, hlisted, rfl⟩
    exact List.mem_cons_of_mem _ (List.mem_cons_of_mem _ (hperm.mem_iff.mpr hkey))

omit [Build] in
theorem struct_size_pos : 0 < struct_size := by decide

namespace Kept

theorem tree {c : TreeCall} (h : Kept s) (hc : Proper order s (.tree c)) (hs : s.step order (.tree c) = some t) :
    Kept t := by
  obtain ⟨tree, htree, rfl⟩ := Option.map_eq_some_iff.mp hs
  obtain ⟨hstored, hnamed⟩ := hc
  obtain ⟨⟨fs', r⟩, hrun, hfs⟩ := Option.map_eq_some_iff.mp htree
  have hlistable : AllListable tree.fs := by
    rw [← hfs]
    exact h.listable.step h.agrees.family hnamed (tree_step hrun)
  refine ⟨h.agrees.step hstored htree, hlistable, h.position, h.fresh, fun ns hns => ?_, h.records, h.succeeds,
    h.complete⟩
  have hcovers := h.covers ns hns
  exact ⟨hcovers.once, hcovers.dot, hcovers.dotDot, fun name hname => hcovers.since name hname.1⟩

theorem seek {offset : Nat} (h : Kept s) (hc : Proper order s (.seek offset))
    (hs : s.step order (.seek offset) = some t) : Kept t := by
  cases hs
  obtain ⟨r, hr, rfl⟩ := hc
  obtain ⟨i, hi⟩ := List.mem_iff_getElem?.mp hr
  cases hnames : s.stream.getdents with
  | none =>
    rw [h.fresh hnames] at hr
    cases hr
  | some ns =>
    obtain ⟨name, -, -, hoff⟩ := h.records ns hnames i r hi
    have hlt : i < s.log.length := (List.getElem?_eq_some_iff.mp hi).1
    have hstream : fd_seek s.stream r.d_off = { s.stream with position := r.d_off } := by
      apply if_neg
      rintro ⟨-, hzero⟩
      exact Nat.ne_of_gt (Nat.mul_pos (Nat.succ_pos i) struct_size_pos) (hoff.symm.trans hzero)
    have hgetdents : (fd_seek s.stream r.d_off).getdents = s.stream.getdents := by rw [hstream]
    refine ⟨h.agrees, h.listable, ⟨i + 1, hlt, by rw [hstream]; exact hoff⟩, fun hnone => ?_, fun ns' hns' => ?_,
      fun ns' hns' => ?_, (fun e he => nomatch he), (fun he => nomatch he)⟩
    · exact h.fresh (hgetdents.symm.trans hnone)
    · exact h.covers ns' (hgetdents.symm.trans hns')
    · exact h.records ns' (hgetdents.symm.trans hns')

/-- The names of a call, and what is known of them. -/
theorem names_ok {count : Int} (h : Kept s) (hc : Proper order s (.getdents count)) :
    ∃ ns, names order s.tree.fs s.stream = .ok ns ∧ Covers ns
      (if s.stream.getdents.isNone then Present s.tree.fs s.stream.node else s.since) ∧
      ∀ i r, s.log[i]? = some r → Records ns i r := by
  obtain ⟨-, hopened, -⟩ := hc
  unfold names
  cases hnames : s.stream.getdents with
  | some ns => exact ⟨ns, rfl, h.covers ns hnames, h.records ns hnames⟩
  | none =>
    obtain ⟨hpath, hdir⟩ := hopened hnames
    have hcovers := @covers_keys _ order _ h.agrees h.listable s.stream.node
    refine ⟨_, ?_, hcovers, fun i r hr => ?_⟩
    · unfold readdir
      rw [hpath]
      exact if_pos hdir
    · rw [h.fresh hnames] at hr
      cases hr

theorem getdents {count : Int} (h : Kept s) (hc : Proper order s (.getdents count))
    (hs : s.step order (.getdents count) = some t) : Kept t := by
  obtain ⟨ns, hnames, hcovers, hlog⟩ := h.names_ok hc
  obtain ⟨hroom, -, hdeliverable⟩ := hc
  obtain ⟨k, hk, hposition⟩ := h.position
  have hkns : k ≤ ns.length := Nat.le_trans hk (length_log_le hlog)
  have hidx : s.stream.position / struct_size = k := by
    rw [hposition]
    exact Nat.mul_div_cancel k struct_size_pos
  have hone : 1 ≤ count / struct_size := by
    unfold struct_size at hroom ⊢
    omega
  -- the names that the loop comes to
  have hturns : (ns.drop k).take (min (ns.length : Int) (k + count / struct_size) - k).toNat =
      (ns.drop k).take (count / struct_size).toNat := by
    apply List.take_eq_take_iff.mpr
    rw [List.length_drop]
    omega
  have hslice : ((ns.drop k).take (count / struct_size).toNat).length =
      (min (ns.length : Int) (k + count / struct_size) - k).toNat := by
    rw [List.length_take, List.length_drop]
    omega
  have hdeliver := hdeliverable ns hnames
  rw [hidx] at hdeliver
  obtain ⟨rs, hrs, hlen, hrecords⟩ :=
    @writeRecords_ok _ s.tree.fs { s.stream with getdents := some ns } k _ fun name hname =>
      ⟨(hdeliver name hname).parent, (hdeliver name hname).search, (hdeliver name hname).found,
        (hdeliver name hname).short⟩
  rw [hslice] at hlen
  have hcall : __syscall_getdents64 order s.tree.fs s.stream count =
      ({ s.stream with getdents := some ns, position := (k + rs.length) * struct_size }, .ok rs) := by
    unfold __syscall_getdents64
    rw [hnames]
    dsimp only
    rw [hidx, hturns, hrs, hlen]
  unfold DirRun.step at hs
  dsimp only at hs
  rw [hcall] at hs
  cases hs
  have hreplaced := fun i => @getElem?_replaced _ s.log rs k hk i
  have hlog' : ∀ i r, (s.log.take k ++ rs ++ s.log.drop (k + rs.length))[i]? = some r → Records ns i r := by
    intro i r hr
    rw [hreplaced] at hr
    split at hr
    · next hin =>
        obtain ⟨name, hname, hbytes, hoff⟩ := hrecords (i - k) r hr
        have hat : k + (i - k) = i := Nat.add_sub_cancel' hin.1
        rw [List.getElem?_take, List.getElem?_drop, hat] at hname
        split at hname
        · exact ⟨name, hname, hbytes, hat ▸ hoff⟩
        · cases hname
    · exact hlog i r hr
  have hlength : k + rs.length ≤ (s.log.take k ++ rs ++ s.log.drop (k + rs.length)).length := by
    rw [List.length_append, List.length_append, List.length_take_of_le hk]
    omega
  refine ⟨h.agrees, h.listable, ⟨k + rs.length, ?_, rfl⟩, (fun hnone => nomatch hnone), fun ns' hns' => ?_,
    fun ns' hns' => ?_, (fun e he => nomatch he), fun hzero => ⟨ns, rfl, ?_⟩⟩
  · dsimp only
    rw [hidx]
    exact hlength
  · cases hns'
    exact hcovers
  · cases hns'
    dsimp only
    rw [hidx]
    exact hlog'
  · -- no record was written: the position is behind the last name
    have hbytes : rs.length * struct_size = 0 := Except.ok.inj (Option.some.inj hzero)
    have hnone : rs.length = 0 := by
      unfold struct_size at hbytes
      omega
    have hend : k + rs.length = ns.length := by omega
    dsimp only
    rw [hend]

theorem step {a : Action} (h : Kept s) (hc : Proper order s a) (hs : s.step order a = some t) : Kept t := by
  cases a with
  | tree c => exact h.tree hc hs
  | getdents count => exact h.getdents hc hs
  | seek offset => exact h.seek hc hs

end Kept

theorem kept_start (d : NodeId) (path : Path) : Kept (.start d path) where
  agrees := TreeRun.agrees_start
  listable d := by
    unfold DirRun.start TreeRun.start
    dsimp only
    rw [TreeRun.entries_initial]
    exact Listable.nil
  position := ⟨0, Nat.le_refl 0, rfl⟩
  fresh _ := rfl
  covers _ h := nomatch h
  records _ h := nomatch h
  succeeds _ h := nomatch h
  complete h := nomatch h

/-! ## Results -/

/-- The bytes of a name. -/
def bytes (name : Name) : List UInt8 := name.flatMap String.utf8EncodeChar

/-- The records in front of the position carry the names in front of it. -/
theorem listing_names {ns : List Name} (h : Kept s) (hns : s.stream.getdents = some ns) :
    s.listing.map Dirent.d_name = (ns.take (s.stream.position / struct_size)).map bytes := by
  obtain ⟨k, hk, hposition⟩ := h.position
  have hidx : s.stream.position / struct_size = k := by
    rw [hposition]
    exact Nat.mul_div_cancel k struct_size_pos
  unfold DirRun.listing
  rw [hidx]
  apply List.ext_getElem?
  intro i
  rw [List.getElem?_map, List.getElem?_map, List.getElem?_take, List.getElem?_take]
  split
  · next hlt =>
      obtain ⟨name, hname, hbytes, -⟩ := h.records ns hns i _ (List.getElem?_eq_getElem (Nat.lt_of_lt_of_le hlt hk))
      rw [List.getElem?_eq_getElem (Nat.lt_of_lt_of_le hlt hk), hname]
      exact congrArg some hbytes
  · rfl

/-- In a run in which reads have room for a record and come only to entries that are there: no read fails, no
name is returned twice on the way to the position, and after a read that returns nothing every entry that was
there all the time, `.` and `..` have been returned exactly once. -/
theorem getdents_once (order : KeyOrder) (d : NodeId) (path : Path) {s : DirRun}
    (hr : Reaches (DirRun.step order) (Proper order) (.start d path) s) :
    (∀ e, s.last ≠ some (.error e)) ∧ (s.listing.map Dirent.d_name).Nodup ∧
      (s.last = some (.ok 0) → ∀ name, s.since name ∨ name = dot ∨ name = dotDot →
        (s.listing.map Dirent.d_name).count (bytes name) = 1) := by
  have h : Kept s := hr.invariant (kept_start d path) fun _ _ _ h hc hs => h.step hc hs
  have hunique : (s.listing.map Dirent.d_name).Nodup := by
    cases hnames : s.stream.getdents with
    | none =>
      unfold DirRun.listing
      rw [h.fresh hnames, List.take_nil]
      exact List.nodup_nil
    | some ns =>
      rw [listing_names h hnames]
      exact List.Nodup.map bytes_injective ((h.covers ns hnames).once.sublist (List.take_sublist _ _))
  refine ⟨h.succeeds, hunique, fun hzero name hname => ?_⟩
  obtain ⟨ns, hns, hend⟩ := h.complete hzero
  have hcovers := h.covers ns hns
  have hin : name ∈ ns := by
    obtain hsince | rfl | rfl := hname
    · exact hcovers.since name hsince
    · exact hcovers.dot
    · exact hcovers.dotDot
  rw [hunique.count]
  apply if_pos
  rw [listing_names h hns, hend, Nat.mul_div_cancel _ struct_size_pos, List.take_length]
  exact List.mem_map_of_mem hin

end Reads

section Examples

attribute [local instance] Build.caseSensitive

/-- Keys in the order in which they were added. -/
def insertionOrder : KeyOrder := ⟨id, fun _ => .refl _⟩

/-- The empty root directory is read to its end. -/
theorem getdents_once_root : ∃ s, Reaches (DirRun.step insertionOrder) (Proper insertionOrder) (.start 0 ['/']) s ∧
    s.last = some (.ok 0) ∧ (s.listing.map Dirent.d_name).count (bytes dot) = 1 := by
  have hrun : (exec (DirRun.step insertionOrder) (.start 0 ['/']) [.getdents 560, .getdents 560]).map
      (fun s => s.last) = some (some (.ok 0)) := by decide
  obtain ⟨s, hs, hlast⟩ := Option.map_eq_some_iff.mp hrun
  have hdeliver : ∀ name ∈ [dot, dotDot], Deliverable FS.initial ⟨0, ['/'], none, 0⟩ name := by
    intro name hname
    have hparent : FS.initial.lookupParent ['/'] = .ok 0 := by decide
    cases List.mem_cons.mp hname with
    | inl hdot =>
      subst hdot
      exact ⟨fun _ => ⟨0, hparent⟩, fun hne => absurd rfl hne, fun hne => absurd rfl hne, by decide⟩
    | inr hdotDot =>
      obtain rfl := List.mem_singleton.mp hdotDot
      exact ⟨fun _ => ⟨0, hparent⟩, fun _ hne => absurd rfl hne, fun _ hne => absurd rfl hne, by decide⟩
  have hnames : names insertionOrder FS.initial ⟨0, ['/'], none, 0⟩ = .ok [dot, dotDot] := by decide
  have hfirst : Proper insertionOrder (.start 0 ['/']) (.getdents 560) := by
    refine ⟨by decide, fun _ => ⟨by decide, by decide⟩, fun ns hns name hname => ?_⟩
    obtain rfl : ns = [dot, dotDot] := Except.ok.inj (hns.symm.trans hnames)
    exact hdeliver name hname
  have hmeets : Meets (DirRun.step insertionOrder) (Proper insertionOrder) (.start 0 ['/'])
      [.getdents 560, .getdents 560] := by
    refine ⟨hfirst, fun s₁ hs₁ => ⟨?_, fun _ _ => trivial⟩⟩
    cases hs₁
    refine ⟨by decide, (fun hnone => nomatch hnone), fun ns hns name hname => ?_⟩
    -- nothing is left
    obtain rfl : [dot, dotDot] = ns := Except.ok.inj hns
    exact nomatch hname
  have hreach := reaches_of_exec _ hs hmeets
  exact ⟨s, hreach, hlast, (getdents_once insertionOrder 0 ['/'] hreach).2.2 hlast dot (.inr (.inl rfl))⟩

/-- An entry is removed after the first call and before it is delivered. -/
theorem getdents_after_unlink : ∃ s, Reaches (DirRun.step insertionOrder) Any (.start 0 ['/']) s ∧
    s.last = some (.error .ENOENT) := by
  have hrun : (exec (DirRun.step insertionOrder) (.start 0 ['/']) [.tree (.mknod "/a".toList .file S_IRWXUGO),
      .tree (.mknod "/b".toList .file S_IRWXUGO), .getdents 840, .tree (.unlink "/b".toList), .getdents 840]).map
        (fun s => s.last) = some (some (.error .ENOENT)) := by decide
  obtain ⟨s, hs, hlast⟩ := Option.map_eq_some_iff.mp hrun
  exact ⟨s, reaches_of_exec _ hs (meets_any _), hlast⟩

end Examples

end JsFs.DirectoryReads
