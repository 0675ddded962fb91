-- SUMMARY: The persist queue of an autoPersist IDBFS mount, and the hooks that feed it.
import Mathlib.Logic.Function.Basic
import Emscripten.Lib.Machine

/-!
# Automatic persistence of an IDBFS mount

A mount with `autoPersist` replaces the operations of its nodes by hooked ones, which put
the mount in a queue of one: a timer starts a sync, and a request that comes while a sync
is in flight starts another one behind it. A step is one call of the file system, one
timer callback, or the completion of one sync; all of them run to their end without
interruption. What a call does to the tree is only counted here.
-/

namespace Idbfs

open Machine

/-! ## State -/

/-- `mount.idbPersistState`: `0`, the handle of a timer, `'idb'` or `'again'`. -/
inductive IdbPersistState
  | idle
  | timer
  | idb
  | again
deriving DecidableEq, Repr

inductive Kind
  | dir
  | file
  | link
  | chrdev
deriving DecidableEq, Repr

structure Node where
  kind : Kind
  /-- It has the operations of the mount's root, not those of MEMFS. -/
  hooked : Bool
  isModified : Bool
deriving DecidableEq, Repr

abbrev NodeId := Nat

structure PersistState where
  node : NodeId → Option Node
  nextInode : NodeId
  /-- The open streams of the mount's nodes. -/
  streams : Nat → Option NodeId
  idbPersistState : IdbPersistState
  /-- Callbacks of `setTimeout` that have not run. -/
  timers : Nat
  /-- The syncs in flight: for each, the number of modifications made before it started. -/
  syncs : List Nat
  /-- Ghost: the number of modifications made, and what `syncs` held of the finished syncs. -/
  made : Nat
  finished : List Nat

def mnt : NodeId := 0

/-- `IDBFS.mount`: the root has the hooked operations, nothing is open, no sync is asked for. -/
def PersistState.mounted : PersistState where
  node := Function.update (fun _ => none) mnt (some ⟨.dir, true, false⟩)
  nextInode := 1
  streams := fun _ => none
  idbPersistState := .idle
  timers := 0
  syncs := []
  made := 0
  finished := []

namespace PersistState

variable (s : PersistState)

/-! ## The queue -/

def startPersist : PersistState :=
  { s with idbPersistState := .idb, syncs := s.syncs ++ [s.made] }

def onPersistComplete : PersistState :=
  if s.idbPersistState = .again then s.startPersist else { s with idbPersistState := .idle }

def queuePersist : PersistState :=
  match s.idbPersistState with
  | .idle => { s with idbPersistState := .timer, timers := s.timers + 1 }
  | .idb => { s with idbPersistState := .again }
  | .timer | .again => s

/-! ## Operations of MEMFS -/

def modification : PersistState := { s with made := s.made + 1 }

def setNode (n : NodeId) (nd : Node) : PersistState :=
  { s with node := Function.update s.node n (some nd) }

/-- `MEMFS.createNode`, the identity of the node given back as the `nextInode` it took. -/
def createNode (nd : Node) : PersistState :=
  { s.setNode s.nextInode nd with nextInode := s.nextInode + 1 }.modification

/-! ## Operations of the nodes -/

/-- A directory's `mknod`. A node that MEMFS's own makes has MEMFS's operations. -/
def mknod (parent : Node) (kind : Kind) : PersistState :=
  if parent.hooked then (s.createNode ⟨kind, true, false⟩).queuePersist
  else s.createNode ⟨kind, false, false⟩

/-- The hook of `rmdir`, `symlink`, `unlink` and `rename`: the sync is asked for first. -/
def hook (parent : Node) : PersistState := if parent.hooked then s.queuePersist else s

def symlink (parent : Node) : PersistState := (s.hook parent).createNode ⟨.link, false, false⟩

/-- `rmdir`, `unlink` and `rename` of MEMFS, which may refuse. -/
def edit (parent : Node) (refused : Bool) : PersistState :=
  if refused then s.hook parent else (s.hook parent).modification

/-- No hook is set on `setattr`: it is the one of MEMFS in every node. -/
def setattr : PersistState := s.modification

/-- A stream's `write`. One of no bytes changes nothing. -/
def write (n : NodeId) (nd : Node) (length : Nat) : PersistState :=
  let s' := if nd.hooked then s.setNode n { nd with isModified := true } else s
  if length = 0 then s' else s'.modification

/-- A stream's `close`. -/
def closeNode (n : NodeId) (nd : Node) : PersistState :=
  if nd.hooked ∧ nd.isModified then s.queuePersist.setNode n { nd with isModified := false } else s

def setStream (fd : Nat) (n : Option NodeId) : PersistState :=
  { s with streams := Function.update s.streams fd n }

end PersistState

/-! ## Calls and events -/

inductive PersistAction
  /-- `FS.mkdir`, or `FS.mknod` of a file that is not opened. -/
  | mknod (parent : NodeId) (kind : Kind)
  | symlink (parent : NodeId)
  /-- `FS.unlink`, `FS.rmdir` or `FS.rename`, where it reaches the operation of the node. -/
  | edit (parent : NodeId) (refused : Bool)
  /-- `FS.chmod`, `FS.truncate`, `FS.ftruncate`, `FS.utime`. -/
  | setattr (n : NodeId)
  /-- `FS.open` of a node that is there. -/
  | openNode (n : NodeId) (fd : Nat) (trunc : Bool)
  /-- `FS.open` that makes the node, with no descriptor where the table is full. -/
  | openCreate (parent : NodeId) (fd : Option Nat)
  | dup (fd fd' : Nat)
  | write (fd length : Nat)
  | close (fd : Nat)
  | timer
  | complete (i : Nat)
deriving DecidableEq, Repr

variable {s' : PersistState} {nd : Node} {p : NodeId} {parent : Node} {n : NodeId}

namespace PersistState

/-- The node of an operation of a directory. -/
def dir (s : PersistState) (n : NodeId) : Option Node :=
  (s.node n).filter fun nd => nd.kind = .dir

/-- `FS.open` after its checks. A link is not opened, and a device's stream gets the operations
of the device: it is none of the mount's. -/
def openNode (s : PersistState) (n : NodeId) (nd : Node) (fd : Nat) (trunc : Bool) :
    Option PersistState :=
  if s.streams fd = none ∧ nd.kind ≠ .link ∧ nd.kind ≠ .chrdev then
    some ((if trunc ∧ nd.kind = .file then s.setattr else s).setStream fd (some n))
  else none

/-- `FS.open` with `O_CREAT`: `mknod`, `createStream`, `chmod`. -/
def openCreate (s : PersistState) (parent : Node) (fd : Option Nat) : Option PersistState :=
  match fd with
  | none => some (s.mknod parent .file)
  | some fd =>
    if s.streams fd = none then
      some (((s.mknod parent .file).setStream fd (some s.nextInode)).setattr)
    else none

def dup (s : PersistState) (fd fd' : Nat) : Option PersistState :=
  (s.streams fd).bind fun n => if s.streams fd' = none then some (s.setStream fd' (some n)) else none

/-- A write reaches the node's operations where the node is a file. -/
def writeFd (s : PersistState) (fd length : Nat) : Option PersistState :=
  (s.streams fd).bind fun n => (s.node n).bind fun nd =>
    if nd.kind = .file then some (s.write n nd length) else none

def close (s : PersistState) (fd : Nat) : Option PersistState :=
  (s.streams fd).bind fun n => (s.node n).map fun nd => (s.closeNode n nd).setStream fd none

def timer (s : PersistState) : Option PersistState :=
  if s.timers = 0 then none else some { s with timers := s.timers - 1 }.startPersist

def complete (s : PersistState) (i : Nat) : Option PersistState :=
  (s.syncs[i]?).map fun start =>
    { s with syncs := s.syncs.eraseIdx i, finished := s.finished ++ [start] }.onPersistComplete

def step (s : PersistState) : PersistAction → Option PersistState
  | .mknod p k => (s.dir p).map fun nd => s.mknod nd k
  | .symlink p => (s.dir p).map s.symlink
  | .edit p refused => (s.dir p).map fun nd => s.edit nd refused
  | .setattr n => (s.node n).map fun _ => s.setattr
  | .openNode n fd trunc => (s.node n).bind fun nd => s.openNode n nd fd trunc
  | .openCreate p fd => (s.dir p).bind fun nd => s.openCreate nd fd
  | .dup fd fd' => s.dup fd fd'
  | .write fd length => s.writeFd fd length
  | .close fd => s.close fd
  | .timer => s.timer
  | .complete i => s.complete i

/-! ## What the hooks cover -/

/-- A sync is about to be asked for, or is asked for and has not started. -/
def Pending (s : PersistState) : Prop :=
  s.idbPersistState = .timer ∨ s.idbPersistState = .again ∨
    ∃ fd n nd, s.streams fd = some n ∧ s.node n = some nd ∧ nd.isModified = true

/-- Every modification was made before the start of a sync that has finished. -/
def Persisted (s : PersistState) : Prop := ∀ m < s.made, ∃ start ∈ s.finished, m < start

/-- A change of a node's attributes finds a sync pending already. -/
def Hooked (s : PersistState) : PersistAction → Prop
  | .setattr _ => s.Pending
  | .openNode n _ true => (∃ nd, s.node n = some nd ∧ nd.kind = .file) → s.Pending
  | _ => True

/-- What is not pending is persisted or on its way. -/
def Clean (s : PersistState) : Prop :=
  match s.idbPersistState with
  | .idle => s.Persisted
  | .idb => s.syncs = [s.made]
  | .timer | .again => True

/-- One timer or one sync as the state says, and hooks on every directory and file. -/
structure Wired (s : PersistState) : Prop where
  timers : s.timers = if s.idbPersistState = .timer then 1 else 0
  syncs : s.syncs.length = if s.idbPersistState = .idb ∨ s.idbPersistState = .again then 1 else 0
  hooked : ∀ n nd, s.node n = some nd → nd.kind = .dir ∨ nd.kind = .file → nd.hooked = true
  fresh : ∀ n, s.nextInode ≤ n → s.node n = none
  streams : ∀ fd n, s.streams fd = some n → ∃ nd, s.node n = some nd ∧ nd.hooked = true

variable {s t : PersistState}

/-! ## Requests -/

@[simp] theorem queuePersist_node : s.queuePersist.node = s.node := by
  unfold queuePersist
  split <;> rfl

@[simp] theorem queuePersist_nextInode : s.queuePersist.nextInode = s.nextInode := by
  unfold queuePersist
  split <;> rfl

@[simp] theorem queuePersist_streams : s.queuePersist.streams = s.streams := by
  unfold queuePersist
  split <;> rfl

/-- The queue asks for a sync that has not started. -/
def Requested (s : PersistState) : Prop := s.idbPersistState = .timer ∨ s.idbPersistState = .again

theorem Requested.pending (h : s.Requested) : s.Pending := h.elim .inl fun ha => .inr (.inl ha)

/-- After a request a timer is set, or another sync will follow the one in flight. -/
theorem queuePersist_requested : s.queuePersist.Requested := by
  unfold Requested queuePersist
  cases h : s.idbPersistState with
  | idle => exact .inl rfl
  | timer => exact .inl h
  | idb => exact .inr rfl
  | again => exact .inr h

theorem Requested.of_eq (h : s.Requested) (ht : t.idbPersistState = s.idbPersistState) :
    t.Requested := by
  unfold Requested
  rw [ht]
  exact h

theorem hook_requested (h : parent.hooked = true) : (s.hook parent).Requested := by
  unfold hook
  rw [if_pos h]
  exact queuePersist_requested

/-! ## Each part keeps the wiring -/

namespace Wired

variable (h : Wired s)
include h

theorem queuePersist : Wired s.queuePersist where
  timers := by
    have := h.timers
    unfold PersistState.queuePersist
    split <;> simp_all
  syncs := by
    have := h.syncs
    unfold PersistState.queuePersist
    split <;> simp_all
  hooked := by simpa using h.hooked
  fresh := by simpa using h.fresh
  streams := by simpa using h.streams

theorem hook (parent : Node) : Wired (s.hook parent) := by
  unfold PersistState.hook
  split
  · exact h.queuePersist
  · exact h

theorem modification : Wired s.modification := ⟨h.timers, h.syncs, h.hooked, h.fresh, h.streams⟩

/-- A node that gets another mark keeps its hooks. -/
theorem setNode (hn : (s.node n).isSome) (hh : nd.hooked = true) :
    Wired (s.setNode n nd) where
  timers := h.timers
  syncs := h.syncs
  hooked := by
    intro m md hm hk
    simp only [PersistState.setNode, Function.update_apply] at hm
    split at hm
    · cases hm
      exact hh
    · exact h.hooked m md hm hk
  fresh := by
    intro m hm
    have hne : m ≠ n := by
      rintro rfl
      simp [h.fresh m hm] at hn
    simp only [PersistState.setNode, Function.update_of_ne hne]
    exact h.fresh m hm
  streams := by
    intro fd m hm
    simp only [PersistState.setNode, Function.update_apply]
    split
    · exact ⟨nd, rfl, hh⟩
    · exact h.streams fd m hm

/-- A new node has the hooks, unless it is a link or a device. -/
theorem createNode (hnd : nd.kind = .dir ∨ nd.kind = .file → nd.hooked = true) :
    Wired (s.createNode nd) where
  timers := h.timers
  syncs := h.syncs
  hooked := by
    intro m md hm hk
    simp only [PersistState.createNode, PersistState.modification, PersistState.setNode,
      Function.update_apply] at hm
    split at hm
    · cases hm
      exact hnd hk
    · exact h.hooked m md hm hk
  fresh := by
    intro m hm
    have hlt : s.nextInode < m := hm
    simp only [PersistState.createNode, PersistState.modification, PersistState.setNode,
      Function.update_of_ne (Nat.ne_of_gt hlt)]
    exact h.fresh m (Nat.le_of_lt hlt)
  streams := by
    intro fd m hm
    obtain ⟨md, hmd, hh⟩ := h.streams fd m hm
    have hne : m ≠ s.nextInode := by
      rintro rfl
      simp [h.fresh _ (Nat.le_refl _)] at hmd
    refine ⟨md, ?_, hh⟩
    simpa [PersistState.createNode, PersistState.modification, PersistState.setNode, hne] using hmd

theorem setStream (fd : Nat) {n : Option NodeId}
    (hn : ∀ m, n = some m → ∃ nd, s.node m = some nd ∧ nd.hooked = true) :
    Wired (s.setStream fd n) where
  timers := h.timers
  syncs := h.syncs
  hooked := h.hooked
  fresh := h.fresh
  streams := by
    intro fd' m hm
    simp only [PersistState.setStream, Function.update_apply] at hm
    split at hm
    · exact hn m hm
    · exact h.streams fd' m hm

/-- A directory of the mount has the hooks. -/
theorem dir (hd : s.dir p = some nd) : nd.hooked = true := by
  obtain ⟨hn, hk⟩ := Option.filter_eq_some_iff.mp hd
  exact h.hooked p nd hn (.inl (by simpa using hk))

theorem mknod (hp : parent.hooked = true) (kind : Kind) : Wired (s.mknod parent kind) := by
  unfold PersistState.mknod
  rw [if_pos hp]
  exact (h.createNode fun _ => rfl).queuePersist

end Wired

theorem mknod_requested (hp : parent.hooked = true) (kind : Kind) : (s.mknod parent kind).Requested := by
  unfold mknod
  rw [if_pos hp]
  exact queuePersist_requested

/-! ## Steps -/

/-- The invariant: what is made is pending, persisted, or in the sync in flight. -/
structure Queued (s : PersistState) : Prop extends Wired s where
  covered : s.Pending ∨ s.Clean

theorem Wired.queued (h : Wired s) (hr : s.Requested) : Queued s := ⟨h, .inl hr.pending⟩

theorem queued_mounted : Queued mounted where
  timers := rfl
  syncs := rfl
  hooked := by
    intro n nd hn _
    simp only [mounted, Function.update_apply] at hn
    split at hn
    · cases hn
      rfl
    · cases hn
  fresh := by
    intro n hn
    have hne : n ≠ mnt := Nat.ne_of_gt hn
    simp [mounted, Function.update_of_ne hne]
  streams := fun _ _ h => nomatch h
  covered := by
    refine .inr fun m hm => ?_
    exact absurd hm (Nat.not_lt_zero m)

namespace Queued

variable (h : Queued s)
include h

theorem mknod (hd : s.dir p = some nd) (kind : Kind) : Queued (s.mknod nd kind) :=
  (h.toWired.mknod (h.toWired.dir hd) kind).queued (mknod_requested (h.toWired.dir hd) kind)

theorem symlink (hd : s.dir p = some nd) : Queued (s.symlink nd) := by
  have hr := hook_requested (s := s) (h.toWired.dir hd)
  refine Wired.queued ?_ (hr.of_eq rfl)
  refine (h.toWired.hook nd).createNode ?_
  rintro (hk | hk)
  · cases hk
  · cases hk

theorem edit (hd : s.dir p = some nd) (refused : Bool) : Queued (s.edit nd refused) := by
  have hr := hook_requested (s := s) (h.toWired.dir hd)
  unfold PersistState.edit
  split
  · exact (h.toWired.hook nd).queued hr
  · exact (h.toWired.hook nd).modification.queued (hr.of_eq rfl)

theorem setattr (hp : s.Pending) : Queued s.setattr := ⟨h.toWired.modification, .inl hp⟩

/-- A stream more leaves what is pending pending. -/
theorem openStream {fd : Nat} (hfree : s.streams fd = none) (hn : s.node n = some nd) (hh : nd.hooked = true) :
    Queued (s.setStream fd (some n)) where
  toWired := by
    refine h.toWired.setStream fd ?_
    rintro m ⟨⟩
    exact ⟨nd, hn, hh⟩
  covered := by
    refine h.covered.imp ?_ id
    rintro (ht | ha | ⟨fd', m, md, hs, hm, hmod⟩)
    · exact .inl ht
    · exact .inr (.inl ha)
    · refine .inr (.inr ⟨fd', m, md, ?_, hm, hmod⟩)
      have hne : fd' ≠ fd := by
        rintro rfl
        simp [hfree] at hs
      simpa [PersistState.setStream, hne] using hs

theorem openNode {fd : Nat} {trunc : Bool} (hn : s.node n = some nd) (hc : s.Hooked (.openNode n fd trunc))
    (ho : s.openNode n nd fd trunc = some s') : Queued s' := by
  unfold PersistState.openNode at ho
  split at ho
  · next hfree =>
      cases ho
      have hk : nd.kind = .dir ∨ nd.kind = .file := by
        cases hkind : nd.kind <;> simp_all
      have hh := h.hooked n nd hn hk
      split
      · next ht =>
          obtain ⟨rfl, hf⟩ := ht
          exact (h.setattr (hc ⟨nd, hn, hf⟩)).openStream hfree.1 hn hh
      · exact h.openStream hfree.1 hn hh
  · cases ho

theorem openCreate {fd : Option Nat} (hd : s.dir p = some nd) (ho : s.openCreate nd fd = some s') :
    Queued s' := by
  have hp := h.toWired.dir hd
  have hm : Queued (s.mknod nd .file) := h.mknod hd .file
  cases fd with
  | none =>
    cases ho
    exact hm
  | some fd =>
    simp only [PersistState.openCreate] at ho
    split at ho
    · next hfree =>
        cases ho
        have hnode : (s.mknod nd .file).node s.nextInode = some ⟨.file, true, false⟩ := by
          simp [PersistState.mknod, hp, PersistState.createNode, PersistState.modification,
            PersistState.setNode]
        have hstreams : (s.mknod nd .file).streams = s.streams := by
          simp [PersistState.mknod, hp, PersistState.createNode, PersistState.modification,
            PersistState.setNode]
        have hopen : Queued ((s.mknod nd .file).setStream fd (some s.nextInode)) :=
          hm.openStream (by simpa [hstreams] using hfree) hnode rfl
        have hr : ((s.mknod nd .file).setStream fd (some s.nextInode)).Requested :=
          (mknod_requested hp .file).of_eq rfl
        exact hopen.setattr hr.pending
    · cases ho

theorem dup {fd fd' : Nat} (hd : s.dup fd fd' = some s') : Queued s' := by
  obtain ⟨n, hn, hd⟩ := Option.bind_eq_some_iff.mp hd
  split at hd
  · next hfree =>
      cases hd
      obtain ⟨nd, hnd, hh⟩ := h.streams fd n hn
      exact h.openStream hfree hnd hh
  · cases hd

/-- A write marks the file, whose stream is open. -/
theorem writeFd {fd length : Nat} (hw : s.writeFd fd length = some s') : Queued s' := by
  obtain ⟨n, hn, hw⟩ := Option.bind_eq_some_iff.mp hw
  obtain ⟨nd, hnd, hw⟩ := Option.bind_eq_some_iff.mp hw
  split at hw
  · next hk =>
      cases hw
      have hh := h.hooked n nd hnd (.inr hk)
      have hp : (s.setNode n { nd with isModified := true }).Pending :=
        .inr (.inr ⟨fd, n, { nd with isModified := true }, hn, Function.update_self .., rfl⟩)
      have hwired : Wired (s.setNode n { nd with isModified := true }) :=
        h.toWired.setNode (by simp [hnd]) hh
      unfold PersistState.write
      rw [if_pos hh]
      split
      · exact ⟨hwired, .inl hp⟩
      · exact ⟨hwired.modification, .inl hp⟩
  · cases hw

/-- The last stream of a modified file asks for a sync when it closes. -/
theorem close {fd : Nat} (hc : s.close fd = some s') : Queued s' := by
  obtain ⟨n, hn, hc⟩ := Option.bind_eq_some_iff.mp hc
  obtain ⟨nd, hnd, rfl⟩ := Option.map_eq_some_iff.mp hc
  obtain ⟨md, hmd, hh⟩ := h.streams fd n hn
  obtain rfl := Option.some.inj (hnd.symm.trans hmd)
  unfold PersistState.closeNode
  split
  · have hw : Wired (s.queuePersist.setNode n { nd with isModified := false }) :=
      h.toWired.queuePersist.setNode (by simp [hnd]) hh
    exact (hw.setStream fd (n := none) (fun _ h => nomatch h)).queued (queuePersist_requested.of_eq rfl)
  · next hm =>
      have hmod : nd.isModified = false := by simpa [hh] using hm
      refine ⟨h.toWired.setStream fd (n := none) (fun _ h => nomatch h), h.covered.imp ?_ id⟩
      rintro (ht | ha | ⟨fd', m, md, hs, hm, hmod'⟩)
      · exact .inl ht
      · exact .inr (.inl ha)
      · refine .inr (.inr ⟨fd', m, md, ?_, hm, hmod'⟩)
        have hne : fd' ≠ fd := by
          rintro rfl
          obtain rfl := Option.some.inj (hn.symm.trans hs)
          obtain rfl := Option.some.inj (hnd.symm.trans hm)
          simp [hmod] at hmod'
        simpa [PersistState.setStream, hne] using hs

/-- The sync that the timer starts covers all that was made. -/
theorem timer (ht : s.timer = some s') : Queued s' := by
  unfold PersistState.timer at ht
  split at ht
  · cases ht
  · next hpos =>
      cases ht
      have hstate : s.idbPersistState = .timer := by
        by_contra hne
        exact hpos (by rw [h.timers, if_neg hne])
      have hsyncs : s.syncs = [] := List.eq_nil_of_length_eq_zero (by rw [h.syncs]; simp [hstate])
      refine ⟨⟨?_, ?_, h.hooked, h.fresh, h.streams⟩, .inr ?_⟩
      · simp [startPersist, h.timers, hstate]
      · simp [startPersist, hsyncs]
      · change s.syncs ++ [s.made] = [s.made]
        rw [hsyncs, List.nil_append]

theorem complete {i : Nat} (hc : s.complete i = some s') : Queued s' := by
  obtain ⟨start, hi, rfl⟩ := Option.map_eq_some_iff.mp hc
  -- There is one sync in flight.
  have hlt : i < s.syncs.length := (List.getElem?_eq_some_iff.mp hi).1
  have hstate : s.idbPersistState = .idb ∨ s.idbPersistState = .again := by
    by_contra hne
    rw [h.syncs, if_neg hne] at hlt
    exact Nat.not_lt_zero i hlt
  have hone : s.syncs.length = 1 := by rw [h.syncs, if_pos hstate]
  obtain ⟨k, hk⟩ := List.length_eq_one_iff.mp hone
  have hi0 : i = 0 := by omega
  subst hi0
  have hstart : k = start := by simpa [hk] using hi
  subst hstart
  have htimers : s.timers = 0 := by
    rw [h.timers, if_neg]
    rcases hstate with he | he <;> simp [he]
  unfold onPersistComplete
  split
  · next ha =>
      refine ⟨⟨?_, ?_, h.hooked, h.fresh, h.streams⟩, .inr ?_⟩
      · simpa [startPersist] using htimers
      · simp [startPersist, hk]
      · simp [startPersist, hk, Clean]
  · next ha =>
      have hidb : s.idbPersistState = .idb := hstate.resolve_right ha
      refine ⟨⟨?_, ?_, h.hooked, h.fresh, h.streams⟩, ?_⟩
      · simpa using htimers
      · simp [hk]
      · refine h.covered.imp ?_ ?_
        · rintro (ht | ha' | hm)
          · cases hidb.symm.trans ht
          · exact absurd ha' ha
          · exact .inr (.inr hm)
        · intro hclean m hm
          have hmade : s.syncs = [s.made] := by simpa [Clean, hidb] using hclean
          obtain rfl : k = s.made := by simpa [hk] using hmade
          exact ⟨s.made, List.mem_append_right _ (List.mem_singleton_self _), hm⟩

/-- A step that meets the condition keeps the invariant. -/
theorem step {a : PersistAction} (hc : s.Hooked a) (hs : s.step a = some s') : Queued s' := by
  cases a with
  | mknod p k =>
    obtain ⟨nd, hd, rfl⟩ := Option.map_eq_some_iff.mp hs
    exact h.mknod hd k
  | symlink p =>
    obtain ⟨nd, hd, rfl⟩ := Option.map_eq_some_iff.mp hs
    exact h.symlink hd
  | edit p refused =>
    obtain ⟨nd, hd, rfl⟩ := Option.map_eq_some_iff.mp hs
    exact h.edit hd refused
  | setattr n =>
    obtain ⟨nd, _, rfl⟩ := Option.map_eq_some_iff.mp hs
    exact h.setattr hc
  | openNode n fd trunc =>
    obtain ⟨nd, hn, ho⟩ := Option.bind_eq_some_iff.mp hs
    exact h.openNode hn hc ho
  | openCreate p fd =>
    obtain ⟨nd, hd, ho⟩ := Option.bind_eq_some_iff.mp hs
    exact h.openCreate hd ho
  | dup fd fd' => exact h.dup hs
  | write fd length => exact h.writeFd hs
  | close fd => exact h.close hs
  | timer => exact h.timer hs
  | complete i => exact h.complete hs

/-- At rest, with nothing open, everything is persisted. -/
theorem persisted (hidle : s.idbPersistState = .idle) (hopen : ∀ fd, s.streams fd = none) :
    s.Persisted := by
  rcases h.covered with (ht | ha | ⟨fd, n, _, hs, _⟩) | hc
  · cases hidle.symm.trans ht
  · cases hidle.symm.trans ha
  · cases (hopen fd).symm.trans hs
  · simpa [Clean, hidle] using hc

end Queued

/-- In a run in which the attributes of nodes change only while a sync is pending, nothing is left
unpersisted when the queue is idle and no stream is open. -/
theorem idle_persisted : ∀ s, Reaches step Hooked mounted s → s.idbPersistState = .idle →
    (∀ fd, s.streams fd = none) → s.Persisted := by
  intro s hr
  have h : Queued s := hr.invariant queued_mounted fun _ _ _ h hc hs => h.step hc hs
  exact h.persisted

/-- A file is made, written, closed and persisted. -/
def createAndWrite : List PersistAction :=
  [.openCreate mnt (some 3), .write 3 10, .close 3, .timer, .complete 0]

theorem idle_persisted_written : ∃ s : PersistState, s.made = 3 ∧ s.Persisted := by
  obtain ⟨s, hrun, hidle, hopen, hmade⟩ : ∃ s, exec step mounted createAndWrite = some s ∧
      s.idbPersistState = .idle ∧ s.streams = Function.update (Function.update (fun _ => none) 3
        (some 1)) 3 none ∧ s.made = 3 := ⟨_, rfl, rfl, rfl, rfl⟩
  have hr : Reaches step Hooked mounted s := reaches_of_exec createAndWrite hrun
    ⟨trivial, fun _ _ => ⟨trivial, fun _ _ => ⟨trivial, fun _ _ => ⟨trivial, fun _ _ =>
      ⟨trivial, fun _ _ => trivial⟩⟩⟩⟩⟩
  exact ⟨s, hmade, idle_persisted s hr hidle (by simp [hopen, Function.update_apply])⟩

/-- The mode of the file is changed after that, and no sync is asked for. -/
theorem chmod_unpersisted : ¬ ∀ s, Reaches step Any mounted s → s.idbPersistState = .idle →
    (∀ fd, s.streams fd = none) → s.Persisted := by
  intro hall
  obtain ⟨s, hrun, hidle, hopen, hmade, hfin⟩ : ∃ s,
      exec step mounted (createAndWrite ++ [.setattr 1]) = some s ∧
      s.idbPersistState = .idle ∧ s.streams = Function.update (Function.update (fun _ => none) 3
        (some 1)) 3 none ∧ s.made = 4 ∧ s.finished = [3] := ⟨_, rfl, rfl, rfl, rfl, rfl⟩
  have hr := reaches_of_exec _ hrun (meets_any _)
  have hp := hall s hr hidle (by simp [hopen, Function.update_apply])
  obtain ⟨start, hmem, hlt⟩ := hp 3 (by simp [hmade])
  simp [hfin] at hmem
  omega

end PersistState

end Idbfs
