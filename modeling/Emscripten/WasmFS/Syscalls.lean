-- SUMMARY: What each tree syscall does from a sound state: the accounts stay in order, and the tree is edited in one known way.
import Emscripten.WasmFS.System
import Emscripten.WasmFS.Descriptors
import Emscripten.WasmFS.Edits

/-!
# The tree syscalls on sound states

`Lands K s prog G` says that `prog`, run from `s`, ends in a state with `G`, with the
accounts in order, with open files in `K`, and with the descriptors it found where it
fails. A syscall first
reads, then edits the tree, then works on the descriptor table: the rules of this module
follow that order, and the result for each syscall names its edit.
-/

namespace WasmFS

open Prog

/-! ## Landing -/

def Lands {α : Type} (K : FileId → Prop) (s : FS) (prog : Sys α) (G : FS → Prop) : Prop :=
  ∀ m, Slots K m nothing s → ∀ s' r, prog s = some (s', r) →
    G s' ∧ match r with
      | .ok _ => ∃ m', Slots K m' nothing s'
      | .error _ => Slots K m nothing s'

/-- `G` does not see what happens outside of the tree. -/
def Stable (G : FS → Prop) : Prop := ∀ s s' : FS, G s → s.KeepsTree s' → G s'

section Lands

variable {α β : Type} {K : FileId → Prop} {s s₁ : FS} {G : FS → Prop}

theorem Lands.pure {a : α} (hG : G s) : Lands K s (Pure.pure a : Sys α) G := by
  intro m hm s' r hr
  cases hr
  exact ⟨hG, m, hm⟩

theorem Lands.fail {e : Errno} (hG : G s) : Lands K s (Prog.fail e : Sys α) G := by
  intro m hm s' r hr
  cases hr
  exact ⟨hG, hm⟩

theorem Lands.ite {c : Prop} [Decidable c] {m₁ m₂ : Sys α} (h₁ : c → Lands K s m₁ G)
    (h₂ : ¬ c → Lands K s m₂ G) : Lands K s (if c then m₁ else m₂) G := by
  split
  · next hc => exact h₁ hc
  · next hc => exact h₂ hc

variable {prog : Sys α} {k : α → Sys β}

/-- A reading prefix. -/
theorem Lands.reads {Q : α → Prop} (hprog : Reads s prog Q) (hG : G s)
    (hk : ∀ a, Q a → prog s = some (s, .ok a) → Lands K s (k a) G) : Lands K s (prog >>= k) G := by
  intro m hm s' r hr
  rcases Reads.bind_cases hprog hr with ⟨e, rfl, rfl⟩ | ⟨a, ha, hrun, hrest⟩
  · exact ⟨hG, hm⟩
  · exact hk a ha hrun m hm s' r hrest

/-- A prefix that does nothing to the table; `R` is what it leaves for the rest. -/
theorem Lands.bind {R : FS → α → Prop} (hprog : ∀ s' r, prog s = some (s', r) → s.KeepsTable s' ∧
      match r with
      | .ok a => R s' a
      | .error _ => G s') (hk : ∀ s' a, R s' a → Lands K s' (k a) G) : Lands K s (prog >>= k) G := by
  intro m hm s' r hr
  cases r with
  | ok b =>
    obtain ⟨a, s₁, hrun, hcont⟩ := bind_ok_iff.mp hr
    obtain ⟨htable, hR⟩ := hprog s₁ (.ok a) hrun
    exact hk s₁ a hR m (hm.keep htable) s' (.ok b) hcont
  | error e =>
    rcases bind_error_iff.mp hr with hrun | ⟨a, s₁, hrun, hcont⟩
    · obtain ⟨htable, hG⟩ := hprog s' (.error e) hrun
      exact ⟨hG, hm.keep htable⟩
    · obtain ⟨htable, hR⟩ := hprog s₁ (.ok a) hrun
      exact hk s₁ a hR m (hm.keep htable) s' (.error e) hcont

/-- A program that does nothing to the table. -/
theorem Lands.edit (hprog : ∀ s' r, prog s = some (s', r) → s.KeepsTable s' ∧ G s') : Lands K s prog G := by
  intro m hm s' r hr
  obtain ⟨htable, hG⟩ := hprog s' r hr
  refine ⟨hG, ?_⟩
  cases r with
  | ok _ => exact ⟨m, hm.keep htable⟩
  | error _ => exact hm.keep htable

/-- A prefix whose outcome is known, and which does nothing to the table. -/
theorem Lands.step {a : α} (hprog : prog s = some (s₁, .ok a)) (htable : s.KeepsTable s₁)
    (hk : Lands K s₁ (k a) G) : Lands K s (prog >>= k) G := by
  intro m hm s' r hr
  have hslots : Slots K m nothing s₁ :=
    hm.keep htable
  have hrun : (prog >>= k) s = k a s₁ := by
    change Prog.seq prog k s = _
    unfold Prog.seq
    rw [hprog]
  exact hk m hslots s' r (hrun ▸ hr)

/-- A program that works on the table alone. -/
theorem Lands.table (hstable : Stable G) (hG : G s) (htree : TreeKept prog)
    (hslots : ∀ m, Triple (fun u => Slots K m nothing u ∧ u = s) prog
      (fun _ u => ∃ m', Slots K m' nothing u) (fun _ => Slots K m nothing)) : Lands K s prog G := by
  intro m hm s' r hr
  have hkept := htree s s (.refl s) s' r hr
  have hpost := hslots m s ⟨hm, rfl⟩ s' r hr
  cases r with
  | ok _ => exact ⟨hstable s s' hG hkept, hpost⟩
  | error _ => exact ⟨hstable s s' hG hkept, hpost⟩

theorem Lands.keepsSlots (hstable : Stable G) (hG : G s) (htree : TreeKept prog) (hslots : KeepsSlots prog) :
    Lands K s prog G :=
  .table hstable hG htree fun m => (hslots K m).weaken fun _ hu => hu.1

theorem Lands.discard (h : Lands K s prog G) : Lands K s (WasmFS.discard prog) G := by
  intro m hm s' r hr
  cases r with
  | ok u =>
    obtain ⟨a, s₁, hrun, hret⟩ := bind_ok_iff.mp hr
    cases hret
    exact h m hm s' (.ok a) hrun
  | error e =>
    rcases bind_error_iff.mp hr with hrun | ⟨a, s₁, hrun, hret⟩
    · exact h m hm s' (.error e) hrun
    · cases hret

theorem Lands.mono {G' : FS → Prop} (h : Lands K s prog G) (hG : ∀ u, G u → G' u) : Lands K s prog G' := by
  intro m hm s' r hr
  obtain ⟨hg, hpost⟩ := h m hm s' r hr
  exact ⟨hG s' hg, hpost⟩

end Lands

/-! ## Opening -/

variable (m : Int → Option OpenId)

section Open

variable {K : FileId → Prop} {s : FS} {G : FS → Prop}

theorem preserves_slots_setSize (pending : OpenId → Prop) (f : FileId) (size : Int) :
    Preserves (Slots K m pending) (DataFile.setSize f size) := by
  intro s hs s' r hr
  have hreq : s.KeepsTable (s.requested (.setSize f size)) :=
    ⟨Nat.le_refl _, fun _ _ => rfl, fun _ _ => rfl, rfl, fun _ => rfl, fun _ => rfl, rfl, rfl⟩
  have htable : s.KeepsTable s' := by
    rcases DataFile.setSize_cases hr with rfl | ⟨buffer, _, _, rfl⟩
    · exact hreq
    · exact hreq.trans (FS.edits_modifyFile _ f rfl rfl).table
  have hpost : Slots K m pending s' :=
    hs.keep htable
  cases r with
  | ok _ => exact hpost
  | error _ => exact hpost

theorem slots_newOpen {file : FileId} (hfile : file < s.nextFile ∧ K file) (flags : Nat) :
    Triple (fun u => Slots K m nothing u ∧ u = s) (OpenFileState.create file flags)
      (fun o => Slots K m (fun y => y = o)) (fun _ => Slots K m nothing) :=
  (slots_create file flags).conseq (fun _ hu => ⟨hu.1, hu.2 ▸ hfile.1, hfile.2⟩)
    (fun _ _ hu => hu.1.congr fun _ => ⟨.inr, fun hy => hy.resolve_left id⟩) (fun _ _ => id)

theorem slots_abandonNew (o : OpenId) {α : Type} (e : Errno) :
    Triple (Slots K m (fun y => y = o))
      (abandonOpenFile o >>= fun _ => (Prog.fail e : Sys α)) (fun _ _ => False)
      (fun _ => Slots K m nothing) := by
  have hnone : ∀ y, nothing y ↔ except (fun y => y = o) o y :=
    fun y => ⟨False.elim, fun hy => hy.2 hy.1⟩
  refine Triple.bind (Q := fun _ => Slots K m nothing) ?_ fun _ => Triple.fails fun _ hu => hu
  exact slots_abandonOpenFile.conseq (fun _ hu => ⟨hu, rfl⟩) (fun _ _ hu => hu.congr hnone)
    (fun _ _ hu => hu.congr hnone)

theorem lands_openExisting (hstable : Stable G) (hG : G s) {child : FileId}
    (hchild : child < s.nextFile ∧ K child) (flags : Nat) : Lands K s (openExisting child flags) G := by
  refine .reads (Q := fun _ => True) (.gets trivial) hG fun kind _ _ => ?_
  refine .reads .failIf hG fun _ _ _ => .reads .failIf hG fun _ _ _ => ?_
  refine .reads (Q := fun _ => True) (.gets trivial) hG fun fileMode _ _ => ?_
  refine .reads .failIf hG fun _ _ _ => .reads .failIf hG fun _ _ _ => ?_
  refine .reads .failIf hG fun _ _ _ => ?_
  have hinstall : ∀ m o, Triple (Slots K m (fun y => y = o)) (installOpenFile o)
      (fun _ u => ∃ m', Slots K m' nothing u) (fun _ => Slots K m nothing) :=
    fun m o => slots_installOpenFile
  refine .table hstable hG ?_ fun m => ?_
  · refine (treeKept_create child flags).bind fun o => .ite (.ite ?_ (.ite ?_ ?_)) ?_
    · exact (treeKept_abandonOpenFile o).bind fun _ => .fail
    · exact (treeKept_abandonOpenFile o).bind fun _ => .fail
    · refine (treeKept_setSize child 0).attempt fun r => ?_
      cases r with
      | ok _ => exact treeKept_installOpenFile o
      | error e =>
        exact .ite ((treeKept_abandonOpenFile o).bind fun _ => .fail) (treeKept_installOpenFile o)
    · exact treeKept_installOpenFile o
  · refine (slots_newOpen m hchild flags).bind fun o => .ite (fun _ => .ite (fun _ => ?_) fun _ => .ite (fun _ => ?_)
      fun _ => ?_) fun _ => hinstall m o
    · exact (slots_abandonNew m o _).conseq (fun _ => id) (fun _ _ h => h.elim) (fun _ _ => id)
    · exact (slots_abandonNew m o _).conseq (fun _ => id) (fun _ _ h => h.elim) (fun _ _ => id)
    · refine Triple.attempt (F := fun _ => Slots K m fun y => y = o)
        (Q := fun _ => Slots K m fun y => y = o) (preserves_slots_setSize m _ child 0)
        (fun _ => hinstall m o) fun e => .ite (fun _ => ?_) fun _ => hinstall m o
      exact (slots_abandonNew m o _).conseq (fun _ => id) (fun _ _ h => h.elim) (fun _ _ => id)

/-- A new node, after it has been made: open it and enter it into the table. -/
theorem lands_openCreated (hstable : Stable G) (hG : G s) {file : FileId}
    (hfile : file < s.nextFile ∧ K file) (flags : Nat) :
    Lands K s (OpenFileState.create file flags >>= fun o => installOpenFile o) G := by
  refine .table hstable hG ?_ fun m => ?_
  · exact (treeKept_create file flags).bind fun o => treeKept_installOpenFile o
  · exact (slots_newOpen m hfile flags).bind fun o => slots_installOpenFile

end Open

/-! ## Pipes -/

section Pipe

variable {K : FileId → Prop} {s : FS} {G : FS → Prop}

theorem slots_abandonIgnored {m : Int → Option OpenId} {pending : OpenId → Prop} {o : OpenId} :
    Triple (fun u => Slots K m pending u ∧ pending o)
      (Prog.attempt (abandonOpenFile o) fun _ => (pure () : Sys Unit))
      (fun _ => Slots K m (except pending o)) (fun _ _ => False) :=
  slots_abandonOpenFile.attempt (fun _ => Triple.returns fun _ hu => hu)
    (fun _ => Triple.returns fun _ hu => hu)

theorem setSlot_restore {m : Int → Option OpenId} {fd : Nat} (h : m fd = none) (o : Option OpenId) :
    setSlot (setSlot m fd o) fd none = m := by
  funext i
  simp only [setSlot]
  split
  · next heq => rw [heq, h]
  · rfl

/-- A pipe end opens without an error. -/
def FS.IsPipeEnd (s : FS) (f : FileId) : Prop :=
  f < s.nextFile ∧ (s.file f).kind = .dataFile ∧ ∃ p, (s.file f).data = .pipe p

theorem create_isPipeEnd (f : FileId) (flags : Nat) :
    Triple (fun u => u.IsPipeEnd f) (OpenFileState.create f flags) (fun _ _ => True)
      (fun _ _ => False) := by
  rintro u ⟨_, hkind, p, hdata⟩ s' r hr
  have hopen : DataFile.tryOpen u f (flags &&& O_ACCMODE) = .ok () := by
    unfold DataFile.tryOpen
    rw [hdata]
  unfold OpenFileState.create at hr
  rw [hkind] at hr
  simp only [hopen] at hr
  cases hr
  trivial

theorem preserves_isPipeEnd_create (f g : FileId) (flags : Nat) :
    Preserves (fun u => u.IsPipeEnd f) (OpenFileState.create g flags) := by
  intro u hu s' r hr
  unfold OpenFileState.create at hr
  split at hr
  · split at hr
    · cases hr
      exact hu
    · cases hr
      exact hu
  · cases hr
    exact hu
  · cases hr
    exact hu

/-- The two ends of a new pipe are files outside of the tree. -/
theorem makePipe_spec (h : s.TreeSound) : ∃ s₁ reader writer,
    makePipe s = some (s₁, .ok (reader, writer)) ∧ s.KeepsTree s₁ ∧ s.KeepsTable s₁ ∧
      s.nextFile ≤ reader ∧ reader < s₁.nextFile ∧ s.nextFile ≤ writer ∧ s₁.IsPipeEnd writer := by
  have hblank : ∀ mode data now, (newPipeFile mode data now).Blank := fun _ _ _ => ⟨rfl, rfl, rfl⟩
  let s₀ : FS := { s with pipe := Function.update s.pipe s.nextPipe [], nextPipe := s.nextPipe + 1 }
  have hkept₀ : s.KeepsTree s₀ := ⟨Nat.le_refl _, fun _ _ => rfl, fun _ _ => rfl, rfl, rfl⟩
  have htable₀ : s.KeepsTable s₀ :=
    ⟨Nat.le_refl _, fun _ _ => rfl, fun _ _ => rfl, rfl, fun _ => rfl, fun _ => rfl, rfl, rfl⟩
  have hkept₁ := (h.keep hkept₀).addFile (hblank S_IRUGO s.nextPipe s₀.env.now)
  have hkept₂ := ((h.keep hkept₀).keep hkept₁).addFile (hblank S_IWUGO s.nextPipe s₀.env.now)
  refine ⟨_, _, _, rfl, (hkept₀.trans hkept₁).trans hkept₂, (htable₀.trans (s₀.edits_addFile _).table).trans
    (FS.edits_addFile _ _).table, Nat.le_refl _, ?_, Nat.le_succ _, ?_⟩
  · exact Nat.lt_succ_of_lt (Nat.lt_succ_self _)
  · refine ⟨Nat.lt_succ_self _, ?_, s.nextPipe, ?_⟩
    · rw [FS.addFile_file, if_pos rfl]
      rfl
    · rw [FS.addFile_file, if_pos rfl]
      rfl

/-- Both descriptions are in slots, or both files are closed again. -/
theorem slots_installPipe (pending : OpenId → Prop) {reader writer : OpenId} (hne : writer ≠ reader)
    (hpending : ∀ y, pending y ↔ y = reader ∨ y = writer) :
    Triple (Slots K m pending)
      (Prog.attempt (addEntry reader) fun
        | .error e => do
          Prog.attempt (abandonOpenFile reader) fun _ => pure ()
          Prog.attempt (abandonOpenFile writer) fun _ => pure ()
          Prog.fail e
        | .ok readerFD =>
          Prog.attempt (addEntry writer) fun
            | .ok writerFD => pure (readerFD, writerFD)
            | .error e => do
              let closee ← setEntry readerFD none
              closeIgnored closee
              Prog.attempt (abandonOpenFile writer) fun _ => pure ()
              Prog.fail e)
      (fun _ u => ∃ m', Slots K m' nothing u) (fun _ => Slots K m nothing) := by
  have hreader : pending reader := (hpending reader).mpr (.inl rfl)
  have hwriter : except pending reader writer := ⟨(hpending writer).mpr (.inr rfl), hne⟩
  have hdone : ∀ y, nothing y ↔ except (except pending reader) writer y := by
    intro y
    refine ⟨False.elim, ?_⟩
    rintro ⟨⟨hy, hr⟩, hw⟩
    exact ((hpending y).mp hy).elim hr hw
  have hclosed : ∀ e : Errno, Triple (fun u => Slots K m (except pending reader) u)
      (do
        Prog.attempt (abandonOpenFile writer) fun _ => (pure () : Sys Unit)
        (Prog.fail e : Sys (Nat × Nat)))
      (fun _ u => ∃ m', Slots K m' nothing u) (fun _ => Slots K m nothing) := by
    intro e
    refine Triple.bind (Q := fun _ => Slots K m nothing) ?_ fun _ => Triple.fails fun _ hu => hu
    exact slots_abandonIgnored.conseq (fun _ hu => ⟨hu, hwriter⟩) (fun _ _ hu => hu.congr hdone)
      (fun _ _ h => h.elim)
  refine Triple.attempt ((slots_takeEntry 0).weaken fun _ hu => ⟨hu, .inr hreader⟩) (fun readerFD => ?_)
    fun e => ?_
  · refine Triple.attempt (F := fun _ u => m readerFD = none ∧
        Slots K (setSlot m readerFD (some reader)) (except pending reader) u)
      (Q := fun _ u => ∃ m', Slots K m' nothing u) ?_ (fun _ => Triple.returns fun _ hu => hu)
      fun e => ?_
    · intro u hu s' r hr
      have hpost := slots_takeEntry 0 u ⟨hu.2, .inr hwriter⟩ s' r hr
      cases r with
      | ok _ => exact ⟨_, hpost.2.congr hdone⟩
      | error _ => exact ⟨hu.1, hpost⟩
    · -- Only the writer found no slot: the reader leaves the table again.
      refine Triple.given fun hfree => ?_
      have hset := slots_setEntry K (setSlot m readerFD (some reader)) (except pending reader) readerFD
        none
      rw [setSlot_restore hfree] at hset
      refine Triple.bind (hset.conseq (fun v hv => ⟨hv, fun y hy => by cases hy⟩) (fun _ _ => id)
        (fun _ _ h => h.elim)) fun closee => ?_
      have hclose := slots_closeIgnored K m (except pending reader) closee
      refine Triple.bind (Q := fun _ => Slots K m (except pending reader)) ?_ fun _ => hclosed e
      intro v hv s' r hr
      obtain ⟨hslots, hclosee⟩ := hv
      have hsame : ∀ y, except pending reader y ↔ except pending reader y ∧ closee ≠ some y :=
        fun y => ⟨fun hy => ⟨hy, fun hc => (hclosee y hc).2 hy⟩, And.left⟩
      have hpost := hclose v ⟨hslots.congr fun y => by simp, fun y hy => (hclosee y hy).1⟩ s' r hr
      cases r with
      | ok _ => exact hpost.congr hsame
      | error _ => exact hpost.elim
  · exact (slots_abandonIgnored.conseq (fun _ hu => ⟨hu, hreader⟩) (fun _ _ => id)
      (fun _ _ h => h.elim)).bind fun _ => hclosed e

theorem lands_pipe2 (h : s.TreeSound) (hfresh : ∀ f, s.nextFile ≤ f → K f) (hstable : Stable G) (hG : G s) (flags : Nat) :
    Lands K s (pipe2 flags) G := by
  refine .reads .failIf hG fun _ _ _ => ?_
  obtain ⟨s₁, reader, writer, hrun, hkept, htable, hnew, hreader, hnew', hwriter⟩ := makePipe_spec h
  refine .step hrun htable (.table hstable (hstable s s₁ hG hkept) ?_ fun m => ?_)
  · refine (treeKept_create reader O_RDONLY).bind fun o => (treeKept_create writer O_WRONLY).bind fun o' =>
      (treeKept_takeEntry 0 o).attempt fun r => ?_
    have habandon : ∀ x, TreeKept (Prog.attempt (abandonOpenFile x) fun _ => (pure () : Sys Unit)) :=
      fun x => (treeKept_abandonOpenFile x).attempt fun _ => .pure
    cases r with
    | error e => exact (habandon o).bind fun _ => (habandon o').bind fun _ => .fail
    | ok fd =>
      refine (treeKept_takeEntry 0 o').attempt fun r => ?_
      cases r with
      | ok fd' => exact .pure
      | error e =>
        exact (treeKept_setEntry fd none).bind fun c => (treeKept_closeIgnored c).bind fun _ =>
          (habandon o').bind fun _ => .fail
  · have hfirst : Triple (fun u => Slots K m nothing u ∧ u = s₁) (OpenFileState.create reader O_RDONLY)
        (fun o u => Slots K m (fun y => y = o) u ∧ u.IsPipeEnd writer) (fun _ => Slots K m nothing) :=
      ((slots_newOpen m ⟨hreader, hfresh _ hnew⟩ O_RDONLY).and (preserves_isPipeEnd_create writer reader _)).conseq
        (fun u hu => ⟨hu, hu.2 ▸ hwriter⟩) (fun _ _ => id) (fun _ _ => And.left)
    refine hfirst.bind fun o => Triple.bind (Q := fun o' u =>
      Slots K m (fun y => y = o ∨ y = o') u ∧ o' ≠ o) ?_ fun o' => ?_
    · exact ((slots_create writer O_WRONLY).and (create_isPipeEnd writer O_WRONLY)).conseq
        (fun u hu => ⟨⟨hu.1, hu.2.1, hfresh _ hnew'⟩, hu.2⟩) (fun _ _ hu => hu.1) (fun _ _ h => h.2.elim)
    · refine Triple.weaken (Triple.given fun hne => slots_installPipe m _ hne fun _ => Iff.rfl) ?_
      exact fun _ hu => ⟨hu.2, hu.1⟩

end Pipe

end WasmFS
