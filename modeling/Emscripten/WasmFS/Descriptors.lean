-- SUMMARY: Specifications of the descriptor calls: what each does to the slots, to the accounts and to the tree.
import Emscripten.WasmFS.Accounting

/-!
# The descriptor calls

Each program has a triple for the slots and the accounts, and keeps the tree. The map
`m` of the triples is the whole descriptor-to-description mapping, so that an error
that ends in the map it started from has changed no descriptor.
-/

namespace WasmFS

open Prog

/-- The accounts are in order up to `pending`, the slots are those of `m`, and the files
of the open descriptions are in `K`. -/
structure Slots (K : FileId → Prop) (m : Int → Option OpenId) (pending : OpenId → Prop) (s : FS) :
    Prop where
  accounts : s.Accounted pending
  entries : ∀ fd, s.getEntry fd = m fd
  held : ∀ x, some x ∈ s.fileTable ∨ pending x → K (s.openFile x).file

/-- `m` with the slot `fd` set. -/
def setSlot (m : Int → Option OpenId) (fd : Nat) (o : Option OpenId) : Int → Option OpenId :=
  fun i => if i = fd then o else m i

/-- `pending` without `o`. -/
def except (pending : OpenId → Prop) (o : OpenId) : OpenId → Prop := fun x => pending x ∧ x ≠ o

variable (o : OpenId) {e : Errno} {c : Prop} (s : FS)

section Triples

variable {K : FileId → Prop} {m : Int → Option OpenId} {pending : OpenId → Prop} {o : OpenId}

theorem Slots.congr {pending' : OpenId → Prop} {s : FS} (h : Slots K m pending s)
    (heq : ∀ x, pending' x ↔ pending x) : Slots K m pending' s :=
  ⟨h.accounts.congr heq, h.entries, fun x hx => h.held x (hx.imp_right (heq x).mp)⟩

theorem Slots.keep {s s' : FS} (h : Slots K m pending s) (hk : s.KeepsTable s') :
    Slots K m pending s' where
  accounts := h.accounts.keep hk
  entries fd := (hk.getEntry fd).trans (h.entries fd)
  held x hx := by
    rw [hk.openedFile]
    rw [hk.fileTable] at hx
    exact h.held x hx

/-- Reading programs keep the slots. -/
theorem slots_of_reads {α : Type} {prog : Sys α} {Q : FS → α → Prop}
    (h : ∀ s, Reads s prog (Q s)) :
    Triple (Slots K m pending) prog (fun a s => Slots K m pending s ∧ Q s a)
      (fun _ => Slots K m pending) := by
  intro s hs s' r hr
  obtain ⟨rfl, hq⟩ := h s s' r hr
  cases r with
  | ok a => exact ⟨hs, hq a rfl⟩
  | error e => exact hs

/-! ## Opens and closes -/

theorem slots_close :
    Triple (fun s => Slots K m pending s ∧ pending o ∧ s.isData o) (DataFile.close o)
      (fun _ => Slots K m (except pending o)) (fun _ => Slots K m (except pending o)) := by
  intro s hs s' r hr
  obtain ⟨⟨hacc, hm, hheld⟩, hp, hdata⟩ := hs
  cases hr
  have hpost : Slots K m (except pending o) (s.logged (.closed o :: s.log)) :=
    ⟨hacc.close hp hdata, hm, fun x hx => hheld x (hx.imp_right And.left)⟩
  split
  · exact hpost
  · exact hpost

theorem slots_abandonOpenFile :
    Triple (fun s => Slots K m pending s ∧ pending o) (abandonOpenFile o)
      (fun _ => Slots K m (except pending o)) (fun _ => Slots K m (except pending o)) := by
  intro s hs s' r hr
  change (if decide (s.isData o) = true then DataFile.close o else pure ()) s = _ at hr
  by_cases hdata : s.isData o
  · rw [if_pos (decide_eq_true hdata)] at hr
    exact slots_close s ⟨hs.1, hs.2, hdata⟩ s' r hr
  · rw [if_neg (by simpa using hdata)] at hr
    cases hr
    obtain ⟨⟨hacc, hm, hheld⟩, _⟩ := hs
    exact ⟨hacc.settle hdata, hm, fun x hx => hheld x (hx.imp_right And.left)⟩

theorem slots_create (file : FileId) (flags : Nat) :
    Triple (fun s => Slots K m pending s ∧ file < s.nextFile ∧ K file) (OpenFileState.create file flags)
      (fun x s => Slots K m (fun y => pending y ∨ y = x) s ∧ ¬ pending x)
      (fun _ => Slots K m pending) := by
  intro s hs s' r hr
  obtain ⟨⟨hacc, hm, hheld⟩, hfile, hK⟩ := hs
  have hnew : ¬ pending s.nextOpen := fun hp => Nat.lt_irrefl _ (hacc.pending_lt _ hp)
  -- The new description is pending from here on, whatever its file is.
  have hpost : ∀ x : OpenFileState, x.file = file → x.uses = 0 → ∀ log,
      log = (if (s.file file).kind = .dataFile then .opened s.nextOpen :: s.log else s.log) →
      Slots K m (fun y => pending y ∨ y = s.nextOpen) ((s.addOpen x).logged log) := by
    rintro x rfl huses log hlog
    refine ⟨hacc.create hfile huses log hlog, hm, ?_⟩
    intro y hy
    change K (Function.update s.openFile s.nextOpen x y).file
    rw [Function.update_apply]
    split
    · exact hK
    · next hne =>
        rcases hy with hy | hy | hy
        · exact hheld y (.inl hy)
        · exact hheld y (.inr hy)
        · exact absurd hy hne
  unfold OpenFileState.create at hr
  cases hkind : (s.file file).kind with
  | dataFile =>
    simp only [hkind] at hr
    split at hr
    · cases hr
      exact ⟨hacc, hm, hheld⟩
    · cases hr
      exact ⟨hpost _ rfl rfl _ (by rw [if_pos hkind]), hnew⟩
  | directory =>
    simp only [hkind] at hr
    cases hr
    refine ⟨hpost _ rfl rfl s.log ?_, hnew⟩
    rw [if_neg (by rw [hkind]; decide)]
  | symlink =>
    simp only [hkind] at hr
    cases hr
    refine ⟨hpost _ rfl rfl s.log ?_, hnew⟩
    rw [if_neg (by rw [hkind]; decide)]

/-! ## Slots -/

theorem slots_setEntry (K : FileId → Prop) (m : Int → Option OpenId) (pending : OpenId → Prop) (fd : Nat)
    (x : Option OpenId) :
    Triple (fun s => Slots K m pending s ∧ ∀ y, x = some y → some y ∈ s.fileTable ∨ pending y)
      (setEntry fd x)
      (fun c s => Slots K (setSlot m fd x) (fun y => (pending y ∧ x ≠ some y) ∨ c = some y) s ∧
        ∀ y, c = some y → s.isData y ∧ ¬ pending y)
      (fun _ _ => False) := by
  intro s hs s' r hr
  obtain ⟨⟨hacc, hm, hheld⟩, hx⟩ := hs
  cases hr
  refine ⟨⟨hacc.setEntry fd x hx, ?_, ?_⟩, ?_⟩
  · intro i
    rw [FS.setEntry_getEntry, setSlot, hm]
  · intro y hy
    rw [(s.setEntry_openFile fd x y).1]
    apply hheld
    rcases hy with hy | ⟨hp, _⟩ | hc
    · rcases FS.setEntry_mem hy with hy | hy
      · exact hx y hy
      · exact .inl hy
    · exact .inr hp
    · exact .inl (FS.mem_of_getEntry ((s.setEntry_closee fd x y).mp hc).1)
  · intro y hy
    obtain ⟨hin, _, hdata⟩ := (s.setEntry_closee fd x y).mp hy
    rw [s.setEntry_isData]
    exact ⟨hdata, fun hp => hacc.pending_out y hp (FS.mem_of_getEntry hin)⟩

theorem slots_takeEntry (start : Nat) :
    Triple (fun s => Slots K m pending s ∧ (some o ∈ s.fileTable ∨ pending o)) (takeEntry start o)
      (fun fd s => m fd = none ∧ Slots K (setSlot m fd (some o)) (except pending o) s)
      (fun _ => Slots K m pending) := by
  intro s hs s' r hr
  unfold takeEntry at hr
  cases hfree : s.freeEntry start with
  | none =>
    simp only [hfree] at hr
    cases hr
    exact hs.1
  | some fd =>
    simp only [hfree] at hr
    cases hr
    have hnone : s.getEntry fd = none := by simpa using List.find?_some hfree
    obtain ⟨hslots, _⟩ := slots_setEntry K m pending fd (some o) s
      ⟨hs.1, fun y hy => Option.some.inj hy ▸ hs.2⟩ _ (.ok (s.setEntry fd (some o)).2) rfl
    refine ⟨(hs.1.entries fd).symm.trans hnone, hslots.congr ?_⟩
    intro y
    have hnoclosee : (s.setEntry fd (some o)).2 ≠ some y := by
      intro hy
      have hin := ((s.setEntry_closee fd (some o) y).mp hy).1
      rw [hnone] at hin
      cases hin
    refine ⟨?_, ?_⟩
    · rintro ⟨hp, hne⟩
      exact .inl ⟨hp, fun heq => hne (Option.some.inj heq).symm⟩
    · rintro (⟨hp, hne⟩ | hc)
      · exact ⟨hp, fun heq => hne (congrArg some heq.symm)⟩
      · exact absurd hc hnoclosee

theorem slots_closeIgnored (K : FileId → Prop) (m : Int → Option OpenId) (pending : OpenId → Prop)
    (c : Option OpenId) :
    Triple (fun s => Slots K m (fun x => pending x ∨ c = some x) s ∧ ∀ x, c = some x → s.isData x)
      (closeIgnored c) (fun _ => Slots K m (fun x => pending x ∧ c ≠ some x)) (fun _ _ => False) := by
  cases c with
  | none =>
    intro s hs s' r hr
    cases hr
    refine hs.1.congr fun x => ?_
    simp
  | some o =>
    have hpost : ∀ x, (pending x ∧ some o ≠ some x) ↔
        except (fun x => pending x ∨ some o = some x) o x := by
      intro x
      simp only [except, ne_eq, Option.some.injEq]
      refine ⟨fun h => ⟨.inl h.1, Ne.symm h.2⟩, ?_⟩
      rintro ⟨hx | hx, hne⟩
      · exact ⟨hx, Ne.symm hne⟩
      · exact absurd hx.symm hne
    have hclose : Triple (fun s => Slots K m (fun x => pending x ∨ some o = some x) s ∧
          ∀ x, some o = some x → s.isData x) (DataFile.close o)
        (fun _ => Slots K m (except (fun x => pending x ∨ some o = some x) o))
        (fun _ => Slots K m (except (fun x => pending x ∨ some o = some x) o)) :=
      slots_close.weaken fun s hs => ⟨hs.1, .inr rfl, hs.2 o rfl⟩
    change Triple _ (Prog.attempt (DataFile.close o) fun _ => pure ()) _ _
    refine Triple.attempt hclose ?_ ?_
    · intro _ s hs s' r hr
      cases hr
      exact hs.congr hpost
    · intro _ s hs s' r hr
      cases hr
      exact hs.congr hpost

/-- A description is in a slot, or its file is closed again. -/
theorem slots_installOpenFile :
    Triple (fun s => Slots K m (fun x => x = o) s) (installOpenFile o)
      (fun _ s => ∃ m', Slots K m' nothing s) (fun _ => Slots K m nothing) := by
  have hnone : ∀ x, nothing x ↔ except (fun x => x = o) o x := fun x => ⟨False.elim, fun h => h.2 h.1⟩
  refine Triple.attempt (F := fun _ => Slots K m fun x => x = o)
    (Triple.weaken (slots_takeEntry 0) fun s hs => ⟨hs, .inr rfl⟩) ?_ ?_
  · intro fd s hs s' r hr
    cases hr
    exact ⟨_, hs.2.congr hnone⟩
  · intro e
    refine Triple.bind (Q := fun _ => Slots K m nothing) ?_ (fun _ => Triple.fails fun _ hs => hs)
    refine Triple.conseq slots_abandonOpenFile (fun s hs => ⟨hs, rfl⟩) ?_ ?_
    · intro _ s hs
      exact hs.congr hnone
    · intro _ s hs
      exact hs.congr hnone

/-! ## The calls -/

/-- A call leaves the accounts in order, and the slots as they were where it fails. -/
def KeepsSlots {α : Type} (call : Sys α) : Prop :=
  ∀ K m, Triple (Slots K m nothing) call (fun _ s => ∃ m', Slots K m' nothing s) (fun _ => Slots K m nothing)

theorem reads_fetch (fd : Int) (s : FS) : Reads s (fetch fd) (fun o => s.getEntry fd = some o) := by
  refine .bind (reads_getEntry fd) fun o ho => ?_
  cases o with
  | none => exact .fail
  | some o =>
    refine .bind (reads_admitOpenFile o) fun _ _ => ?_
    exact .pure ho.symm

theorem triple_fetch (fd : Int) :
    Triple (Slots K m nothing) (fetch fd) (fun o s => Slots K m nothing s ∧ some o ∈ s.fileTable)
      (fun _ => Slots K m nothing) :=
  (slots_of_reads (reads_fetch fd)).conseq (fun _ => id)
    (fun _ _ h => ⟨h.1, FS.mem_of_getEntry h.2⟩) (fun _ _ => id)

theorem triple_takeEntry (start : Nat) :
    Triple (fun s => Slots K m nothing s ∧ some o ∈ s.fileTable) (takeEntry start o)
      (fun _ s => ∃ m', Slots K m' nothing s) (fun _ => Slots K m nothing) := by
  refine (slots_takeEntry start).conseq (fun s hs => ⟨hs.1, .inl hs.2⟩) ?_ (fun _ _ => id)
  intro fd s hs
  exact ⟨_, hs.2.congr fun x => ⟨False.elim, And.left⟩⟩

theorem keepsSlots_dup (fd : Int) : KeepsSlots (dup fd) :=
  fun _ _ => Triple.bind (triple_fetch fd) fun _ => triple_takeEntry 0

theorem keepsSlots_failIf [Decidable c] {α : Type} {k : Unit → Sys α} (h : KeepsSlots (k ())) :
    KeepsSlots (failIf c e >>= k) :=
  fun K m => Triple.bind (Q := fun _ => Slots K m nothing) Preserves.failIf fun _ => h K m

theorem slots_failIf [Decidable c] {P : FS → Prop} (h : ∀ s, P s → Slots K m nothing s) :
    Triple P (failIf c e) (fun _ => P) (fun _ => Slots K m nothing) :=
  Triple.failIf.weaken fun s hs => by
    split
    · exact h s hs
    · exact hs

theorem keepsSlots_fcntlDupFd (fd arg : Int) : KeepsSlots (fcntlDupFd fd arg) := by
  intro K m
  refine Triple.bind (triple_fetch fd) fun o => ?_
  refine Triple.bind (slots_failIf fun s hs => hs.1) fun _ => ?_
  exact triple_takeEntry arg.toNat

theorem keepsSlots_dup3 (oldfd newfd : Int) (flags : Nat) : KeepsSlots (dup3 oldfd newfd flags) := by
  apply keepsSlots_failIf
  apply keepsSlots_failIf
  intro K m
  refine Triple.bind (triple_fetch oldfd) fun o => ?_
  refine Triple.bind (slots_failIf fun s hs => hs.1) fun _ => ?_
  refine Triple.bind (Q := fun _ s => Slots K m nothing s ∧ some o ∈ s.fileTable) ?_ fun replaced => ?_
  · intro s hs s' r hr
    cases hr
    exact hs
  refine Triple.bind (Q := fun _ s => Slots K m nothing s ∧ some o ∈ s.fileTable) ?_ fun _ => ?_
  · cases replaced with
    | none => exact Triple.returns fun _ hs => hs
    | some x =>
      intro s hs s' r hr
      obtain ⟨rfl, _⟩ := reads_admitOpenFile x s' r hr
      cases r with
      | ok _ => exact hs
      | error _ => exact hs.1
  -- From here on the call returns a descriptor.
  have hset := slots_setEntry K m nothing newfd.toNat (some o)
  refine Triple.bind (hset.conseq (fun s hs => ⟨hs.1, ?_⟩) (fun _ _ => id) (fun _ _ h => h.elim))
    fun closee => ?_
  · intro y hy
    exact .inl (Option.some.inj hy ▸ hs.2)
  have hclose := slots_closeIgnored K (setSlot m newfd.toNat (some o)) nothing closee
  refine Triple.bind (hclose.conseq (fun s hs => ⟨hs.1.congr fun x => ?_, fun x hx => (hs.2 x hx).1⟩)
    (fun _ _ => id) (fun _ _ h => h.elim)) fun _ => ?_
  · simp [nothing]
  exact Triple.returns fun s hs => ⟨_, hs.congr fun x => ⟨False.elim, And.left⟩⟩

theorem keepsSlots_dup2 (oldfd newfd : Int) : KeepsSlots (dup2 oldfd newfd) := by
  intro K m
  refine Triple.ite (fun _ => ?_) (fun _ => keepsSlots_dup3 oldfd newfd 0 K m)
  exact Triple.bind (triple_fetch oldfd) fun _ => Triple.returns fun s hs => ⟨m, hs.1⟩

/-! ## Closing -/

/-- Only the close of the file can fail once the descriptor is gone. -/
theorem slots_fdClose (K : FileId → Prop) (m : Int → Option OpenId) (fd : Int) :
    Triple (Slots K m nothing) (fdClose fd) (fun _ => Slots K (setSlot m fd.toNat none) nothing)
      (fun e s => Slots K m nothing s ∨
        Slots K (setSlot m fd.toNat none) nothing s ∧ ∃ o, m fd = some o ∧
          s.env.close (s.openFile o).file = .error e) := by
  refine Triple.bind (Q := fun o s => Slots K m nothing s ∧ m fd = o) ?_ fun found => ?_
  · intro s hs s' r hr
    cases hr
    exact ⟨hs, (hs.entries fd).symm⟩
  cases found with
  | none => exact Triple.fails fun s hs => .inl hs.1
  | some o =>
    refine Triple.bind (Q := fun _ s => Slots K m nothing s ∧ m fd = some o) ?_ fun _ => ?_
    · refine Triple.attempt (F := fun _ => Slots K m nothing) (Q := fun _ s =>
        Slots K m nothing s ∧ m fd = some o) ?_ (fun _ => Triple.returns fun _ hs => hs)
        (fun _ => Triple.fails fun _ hs => .inl hs)
      intro s hs s' r hr
      obtain ⟨rfl, _⟩ := reads_admitOpenFile o s' r hr
      cases r with
      | ok _ => exact hs
      | error _ => exact hs.1
    have hset := slots_setEntry K m nothing fd.toNat none
    refine Triple.bind (Q := fun c s => Slots K (setSlot m fd.toNat none) (fun x => c = some x) s ∧
      (∀ x, c = some x → s.isData x) ∧ ∀ x, c = some x → m fd = some x) ?_ fun closee => ?_
    · intro s hs s' r hr
      have hspec := hset s ⟨hs.1, fun y hy => by cases hy⟩ s' r hr
      cases hr
      refine ⟨hspec.1.congr fun x => ?_, fun x hx => (hspec.2 x hx).1, ?_⟩
      · simp [nothing]
      · intro x hx
        have hnonneg : 0 ≤ fd := by
          by_contra hneg
          have hentry := hs.1.entries fd
          rw [FS.getEntry_neg (Int.not_le.mp hneg), hs.2] at hentry
          cases hentry
        have hin := ((s.setEntry_closee fd.toNat none x).mp hx).1
        rw [Int.toNat_of_nonneg hnonneg, hs.1.entries] at hin
        exact hin
    cases closee with
    | none => exact Triple.returns fun s hs => hs.1.congr fun x => by simp [nothing]
    | some x =>
      intro s hs s' r hr
      obtain ⟨hslots, hdata, hfd⟩ := hs
      have hclosed := slots_close s ⟨hslots, rfl, hdata x rfl⟩ s' r hr
      have hempty : ∀ y, nothing y ↔ except (fun z => some x = some z) x y := by
        intro y
        refine ⟨False.elim, fun hy => hy.2 (Option.some.inj hy.1).symm⟩
      cases r with
      | ok _ => exact hclosed.congr hempty
      | error e =>
        refine .inr ⟨hclosed.congr hempty, x, hfd x rfl, ?_⟩
        have hout := congrArg Prod.snd (Option.some.inj hr)
        have hstate := congrArg Prod.fst (Option.some.inj hr)
        simp only at hout hstate
        rw [← hstate]
        change s.env.close (s.openFile x).file = .error e
        split at hout
        · exact hout
        · cases hout

/-! ## Detaching -/

theorem FS.detachFrom_isData (keep : FS → OpenId → Bool) (n : Nat) :
    ∀ (fd : Nat) (s : FS) (x : OpenId), (FS.detachFrom keep n fd s).1.isData x ↔ s.isData x := by
  induction n with
  | zero => exact fun _ _ _ => Iff.rfl
  | succ n ih =>
    intro fd s x
    unfold FS.detachFrom
    refine (ih _ _ x).trans ?_
    split
    · split
      · exact Iff.rfl
      · exact s.setEntry_isData fd none x
    · exact s.setEntry_isData fd none x

/-- Whatever is in the table or is returned was in the table before. -/
theorem FS.detachFrom_mem (keep : FS → OpenId → Bool) (n : Nat) :
    ∀ (fd : Nat) (s : FS), (∀ x, some x ∈ (FS.detachFrom keep n fd s).1.fileTable ∨
        x ∈ (FS.detachFrom keep n fd s).2 → some x ∈ s.fileTable) ∧
      ∀ x, ((FS.detachFrom keep n fd s).1.openFile x).file = (s.openFile x).file := by
  induction n with
  | zero =>
    intro fd s
    refine ⟨?_, fun _ => rfl⟩
    rintro x (hx | hx)
    · exact hx
    · exact absurd hx List.not_mem_nil
  | succ n ih =>
    intro fd s
    have hround : ∀ step : FS × Option OpenId,
        (∀ x, some x ∈ step.1.fileTable ∨ step.2 = some x → some x ∈ s.fileTable) →
        (∀ x, (step.1.openFile x).file = (s.openFile x).file) →
        let rest := FS.detachFrom keep n (fd + 1) step.1
        (∀ x, some x ∈ rest.1.fileTable ∨ x ∈ step.2.toList ++ rest.2 → some x ∈ s.fileTable) ∧
          ∀ x, (rest.1.openFile x).file = (s.openFile x).file := by
      intro step hstep hfile
      obtain ⟨hmem, hrest⟩ := ih (fd + 1) step.1
      refine ⟨?_, fun x => (hrest x).trans (hfile x)⟩
      rintro x (hx | hx)
      · exact hstep x (.inl (hmem x (.inl hx)))
      · rcases List.mem_append.mp hx with hx | hx
        · exact hstep x (.inr (Option.mem_toList.mp hx))
        · exact hstep x (.inl (hmem x (.inr hx)))
    have hclear : ∀ x, some x ∈ (s.setEntry fd none).1.fileTable ∨ (s.setEntry fd none).2 = some x →
        some x ∈ s.fileTable := by
      rintro x (hx | hx)
      · exact (FS.setEntry_mem hx).resolve_left (by simp)
      · exact FS.mem_of_getEntry ((s.setEntry_closee fd none x).mp hx).1
    have hsame : ∀ x, ((s.setEntry fd none).1.openFile x).file = (s.openFile x).file :=
      fun x => (s.setEntry_openFile fd none x).1
    unfold FS.detachFrom
    cases s.getEntry fd with
    | none => exact hround _ hclear hsame
    | some o =>
      simp only []
      split
      · exact hround (s, none) (fun x hx => hx.elim id fun hx => by cases hx) fun _ => rfl
      · exact hround _ hclear hsame

/-- One round of the loop: what leaves the table for good becomes pending. -/
theorem FS.Accounted.clearSlot {s : FS} (h : s.Accounted pending) (fd : Nat) :
    (s.setEntry fd none).1.Accounted (fun x => pending x ∨ (s.setEntry fd none).2 = some x) ∧
      ∀ x, (s.setEntry fd none).2 = some x → ¬ pending x ∧ s.isData x := by
  refine ⟨(h.setEntry fd none fun x hx => by cases hx).congr fun x => by simp, ?_⟩
  intro x hx
  obtain ⟨hin, _, hdata⟩ := (s.setEntry_closee fd none x).mp hx
  exact ⟨fun hp => h.pending_out x hp (FS.mem_of_getEntry hin), hdata⟩

/-- The descriptions that a detach returns are distinct, and are those that are pending
after it. -/
theorem FS.Accounted.detachFrom (keep : FS → OpenId → Bool) (n : Nat) :
    ∀ (fd : Nat) {s : FS} {pending : OpenId → Prop}, s.Accounted pending →
      (FS.detachFrom keep n fd s).1.Accounted
          (fun x => pending x ∨ x ∈ (FS.detachFrom keep n fd s).2) ∧
        (FS.detachFrom keep n fd s).2.Nodup ∧
        ∀ x ∈ (FS.detachFrom keep n fd s).2, ¬ pending x ∧ s.isData x := by
  induction n with
  | zero =>
    intro fd s pending h
    refine ⟨h.congr fun x => ?_, List.nodup_nil, fun x hx => by cases hx⟩
    simp [FS.detachFrom]
  | succ n ih =>
    intro fd s pending h
    unfold FS.detachFrom
    -- The round leaves a state and at most one description to close.
    have hround : ∀ step : FS × Option OpenId,
        step.1.Accounted (fun x => pending x ∨ step.2 = some x) →
        (∀ x, step.2 = some x → ¬ pending x ∧ s.isData x) →
        (∀ x, step.1.isData x ↔ s.isData x) →
        let rest := FS.detachFrom keep n (fd + 1) step.1
        rest.1.Accounted (fun x => pending x ∨ x ∈ step.2.toList ++ rest.2) ∧
          (step.2.toList ++ rest.2).Nodup ∧
          ∀ x ∈ step.2.toList ++ rest.2, ¬ pending x ∧ s.isData x := by
      intro step hacc hnew hdata
      obtain ⟨hrest, hnodup, hout⟩ := ih (fd + 1) hacc
      refine ⟨hrest.congr fun x => ?_, ?_, ?_⟩
      · rw [List.mem_append, Option.mem_toList, or_assoc]
      · refine List.Nodup.append ?_ hnodup ?_
        · cases step.2 with
          | none => exact List.nodup_nil
          | some x => exact List.nodup_singleton x
        · intro x hx hx'
          exact (hout x hx').1 (.inr (Option.mem_toList.mp hx))
      · intro x hx
        rcases List.mem_append.mp hx with hx | hx
        · exact hnew x (Option.mem_toList.mp hx)
        · exact ⟨fun hp => (hout x hx).1 (.inl hp), (hdata x).mp (hout x hx).2⟩
    have hclear := h.clearSlot fd
    have hsame := s.setEntry_isData fd none
    cases s.getEntry fd with
    | none => exact hround _ hclear.1 hclear.2 hsame
    | some o =>
      simp only []
      split
      · exact hround (s, none) (h.congr fun x => by simp) (fun x hx => by cases hx)
          (fun _ => Iff.rfl)
      · exact hround _ hclear.1 hclear.2 hsame

theorem slots_closeAll (K : FileId → Prop) (m : Int → Option OpenId) : ∀ os : List OpenId, os.Nodup →
    Triple (fun s => Slots K m (fun x => x ∈ os) s ∧ ∀ x ∈ os, s.isData x) (closeAll os)
      (fun _ => Slots K m nothing) (fun _ _ => False) := by
  intro os
  induction os with
  | nil =>
    intro _
    exact Triple.returns fun s hs => hs.1.congr fun x => by simp [nothing]
  | cons o os ih =>
    intro hnodup
    obtain ⟨ho, hos⟩ := List.nodup_cons.mp hnodup
    refine Triple.bind (Q := fun _ s => Slots K m (fun x => x ∈ os) s ∧ ∀ x ∈ os, s.isData x) ?_
      fun _ => ih hos
    have hclose : Triple (fun s => Slots K m (fun x => x ∈ o :: os) s ∧ ∀ x ∈ o :: os, s.isData x)
        (DataFile.close o) (fun _ s => Slots K m (fun x => x ∈ os) s ∧ ∀ x ∈ os, s.isData x)
        (fun _ s => Slots K m (fun x => x ∈ os) s ∧ ∀ x ∈ os, s.isData x) := by
      intro s hs s' r hr
      have hpost := slots_close s ⟨hs.1, List.mem_cons_self, hs.2 o List.mem_cons_self⟩ s' r hr
      have hiff : ∀ x, x ∈ os ↔ except (fun y => y ∈ o :: os) o x := by
        intro x
        change x ∈ os ↔ x ∈ o :: os ∧ x ≠ o
        rw [List.mem_cons]
        refine ⟨fun hx => ⟨.inr hx, fun heq => ho (heq ▸ hx)⟩, ?_⟩
        intro hx
        exact hx.1.resolve_left hx.2
      cases hr
      split at hpost
      · exact ⟨hpost.congr hiff, fun x hx => hs.2 x (List.mem_cons_of_mem _ hx)⟩
      · exact ⟨hpost.congr hiff, fun x hx => hs.2 x (List.mem_cons_of_mem _ hx)⟩
    exact Triple.attempt hclose (fun _ => Triple.returns fun _ hs => hs)
      (fun _ => Triple.returns fun _ hs => hs)

/-- Detaching some slots and closing what is left. -/
theorem keepsSlots_detach (keep : FS → OpenId → Bool) {call : Sys Unit}
    (hcall : ∀ s, call s = closeAll (FS.detachFrom keep s.fileTable.length 0 s).2
      (FS.detachFrom keep s.fileTable.length 0 s).1) :
    Triple (Slots K m nothing) call (fun _ s => ∃ m', Slots K m' nothing s) (fun _ _ => False) := by
  intro s hs s' r hr
  rw [hcall] at hr
  obtain ⟨hacc, hnodup, hdata⟩ := hs.accounts.detachFrom keep s.fileTable.length 0
  obtain ⟨hmem, hfile⟩ := s.detachFrom_mem keep s.fileTable.length 0
  have hheld : ∀ x, some x ∈ (FS.detachFrom keep s.fileTable.length 0 s).1.fileTable ∨
      x ∈ (FS.detachFrom keep s.fileTable.length 0 s).2 →
      K ((FS.detachFrom keep s.fileTable.length 0 s).1.openFile x).file := by
    intro x hx
    rw [hfile]
    exact hs.held x (.inl (hmem x hx))
  have hpost := slots_closeAll K
    (fun fd => (FS.detachFrom keep s.fileTable.length 0 s).1.getEntry fd) _ hnodup _
    ⟨⟨hacc.congr fun x => by simp [nothing], fun _ => rfl, hheld⟩,
      fun x hx => (FS.detachFrom_isData keep _ _ s x).mpr (hdata x hx).2⟩ s' r hr
  cases r with
  | ok _ => exact ⟨_, hpost⟩
  | error _ => exact hpost

theorem keepsSlots_detachAll : KeepsSlots detachAll :=
  fun _ _ => (keepsSlots_detach _ fun _ => rfl).conseq (fun _ => id) (fun _ _ => id)
    (fun _ _ h => h.elim)

theorem keepsSlots_detachBackend (backend : Option Backend) : KeepsSlots (detachBackend backend) :=
  fun _ _ => (keepsSlots_detach _ fun _ => rfl).conseq (fun _ => id) (fun _ _ => id)
    (fun _ _ h => h.elim)

end Triples

/-! ## The tree -/

section TreeKept

variable {α β : Type} {prog : Sys α}

/-- The program leaves the tree alone. -/
def TreeKept (prog : Sys α) : Prop := ∀ s₀ : FS, Preserves s₀.KeepsTree prog

theorem treeKept_of_step (h : ∀ s s' r, prog s = some (s', r) → s.KeepsTree s') : TreeKept prog := by
  intro s₀ s hs s' r hr
  have hkept := hs.trans (h s s' r hr)
  cases r with
  | ok _ => exact hkept
  | error _ => exact hkept

theorem TreeKept.bind {k : α → Sys β} (hm : TreeKept prog) (hk : ∀ a, TreeKept (k a)) :
    TreeKept (prog >>= k) :=
  fun s₀ => (hm s₀).bind fun a => hk a s₀

theorem TreeKept.attempt {k : Except Errno α → Sys β} (hm : TreeKept prog)
    (hk : ∀ r, TreeKept (k r)) : TreeKept (Prog.attempt prog k) :=
  fun s₀ => (hm s₀).attempt fun r => hk r s₀

theorem TreeKept.ite [Decidable c] {m₁ m₂ : Sys α} (h₁ : TreeKept m₁) (h₂ : TreeKept m₂) :
    TreeKept (if c then m₁ else m₂) :=
  fun s₀ => (h₁ s₀).ite (h₂ s₀)

theorem TreeKept.pure {a : α} : TreeKept (Pure.pure a : Sys α) := fun _ => Preserves.pure

theorem TreeKept.fail : TreeKept (Prog.fail e : Sys α) := fun _ => Preserves.fail

theorem TreeKept.failIf [Decidable c] : TreeKept (Prog.failIf c e) :=
  fun _ => Preserves.failIf

theorem TreeKept.gets {f : FS → α} : TreeKept (Prog.gets f) := fun _ => Preserves.gets

theorem TreeKept.of_reads {Q : FS → α → Prop} (h : ∀ s, Reads s prog (Q s)) : TreeKept prog :=
  fun _ => Reads.preserves h

/-- Record locks are not part of the tree. -/
theorem FS.keepsTree_clearRecordLocks (f : FileId) : s.KeepsTree (s.clearRecordLocks f) :=
  ⟨Nat.le_refl _, fun g _ => s.clearRecordLocks_kind f g, fun g _ => s.clearRecordLocks_backend f g,
    s.tree_modifyFile rfl rfl rfl, rfl⟩

theorem FS.keepsTree_setEntry (fd : Nat) (o : Option OpenId) : s.KeepsTree (s.setEntry fd o).1 := by
  have hput : ∀ u : FS, u.KeepsTree (u.putSlot fd o) :=
    fun u => ⟨Nat.le_refl _, fun _ _ => rfl, fun _ _ => rfl, rfl, rfl⟩
  have hdrop : ∀ (u : FS) (old : OpenId), u.KeepsTree ((u.dropEntry old).putSlot fd o) := by
    intro u old
    obtain ⟨hn, hk, hb, ht, hc⟩ := u.keepsTree_clearRecordLocks (u.openFile old).file
    exact ⟨hn, hk, hb, ht, hc⟩
  have hgrow : s.KeepsTree (s.growTable fd) := ⟨Nat.le_refl _, fun _ _ => rfl, fun _ _ => rfl, rfl, rfl⟩
  have huse : ∀ y, s.KeepsTree ((s.growTable fd).addUses y 1) :=
    fun y => ⟨Nat.le_refl _, fun _ _ => rfl, fun _ _ => rfl, rfl, rfl⟩
  unfold FS.setEntry
  cases o with
  | none =>
    simp only []
    split
    · exact hgrow.trans (hput _)
    · next old _ => exact hgrow.trans (hdrop _ old)
  | some y =>
    simp only []
    split
    · exact (huse y).trans (hput _)
    · next old _ => exact (huse y).trans (hdrop _ old)

theorem treeKept_setEntry (fd : Nat) (o : Option OpenId) : TreeKept (setEntry fd o) := by
  refine treeKept_of_step fun s s' r hr => ?_
  cases hr
  exact s.keepsTree_setEntry fd o

theorem treeKept_takeEntry (start : Nat) (o : OpenId) : TreeKept (takeEntry start o) := by
  refine treeKept_of_step fun s s' r hr => ?_
  unfold takeEntry at hr
  split at hr
  · cases hr
    exact s.keepsTree_setEntry _ _
  · cases hr
    exact .refl s

theorem treeKept_close : TreeKept (DataFile.close o) := by
  refine treeKept_of_step fun s s' r hr => ?_
  cases hr
  exact ⟨Nat.le_refl _, fun _ _ => rfl, fun _ _ => rfl, rfl, rfl⟩

theorem FS.keepsTree_requested (q : DataRequest) : s.KeepsTree (s.requested q) :=
  ⟨Nat.le_refl _, fun _ _ => rfl, fun _ _ => rfl, rfl, rfl⟩

theorem FS.keepsTree_setData (f : FileId) (data : DataImpl) :
    s.KeepsTree (s.modifyFile f fun x => { x with data := data }) := by
  refine ⟨Nat.le_refl _, fun g _ => ?_, fun g _ => ?_, s.tree_modifyFile rfl rfl rfl, rfl⟩
  · rw [FS.modifyFile_file]
    split
    · next heq => rw [heq]
    · rfl
  · rw [FS.modifyFile_file]
    split
    · next heq => rw [heq]
    · rfl

/-- A resizing reaches the file, and may change a memory file's bytes. -/
theorem DataFile.setSize_cases {f : FileId} {size : Int} {s s' : FS} {r : Except Errno Unit}
    (hr : DataFile.setSize f size s = some (s', r)) :
    s' = s.requested (.setSize f size) ∨
      ∃ buffer, (s.file f).data = .memory buffer ∧ r = .ok () ∧
        s' = (s.requested (.setSize f size)).modifyFile f fun x =>
          { x with data := .memory (ByteSeq.resize 0 size.toNat buffer) } := by
  unfold DataFile.setSize at hr
  cases hdata : (s.file f).data with
  | memory buffer =>
    have hdata' : ((s.requested (.setSize f size)).file f).data = .memory buffer := hdata
    simp only [hdata'] at hr
    split at hr
    · cases hr
      exact .inl rfl
    · cases hr
      exact .inr ⟨buffer, rfl, rfl, rfl⟩
  | pipe q =>
    have hdata' : ((s.requested (.setSize f size)).file f).data = .pipe q := hdata
    simp only [hdata'] at hr
    cases hr
    exact .inl rfl
  | external =>
    have hdata' : ((s.requested (.setSize f size)).file f).data = .external := hdata
    simp only [hdata'] at hr
    cases hr
    exact .inl rfl

theorem treeKept_setSize (f : FileId) (size : Int) : TreeKept (DataFile.setSize f size) := by
  refine treeKept_of_step fun s s' r hr => ?_
  rcases DataFile.setSize_cases hr with rfl | ⟨buffer, _, _, rfl⟩
  · exact s.keepsTree_requested _
  · exact (s.keepsTree_requested _).trans (FS.keepsTree_setData _ f _)

theorem treeKept_create (file : FileId) (flags : Nat) : TreeKept (OpenFileState.create file flags) := by
  refine treeKept_of_step fun s s' r hr => ?_
  unfold OpenFileState.create at hr
  split at hr
  · split at hr
    · cases hr
      exact .refl s
    · cases hr
      exact ⟨Nat.le_refl _, fun _ _ => rfl, fun _ _ => rfl, rfl, rfl⟩
  · cases hr
    exact ⟨Nat.le_refl _, fun _ _ => rfl, fun _ _ => rfl, rfl, rfl⟩
  · cases hr
    exact ⟨Nat.le_refl _, fun _ _ => rfl, fun _ _ => rfl, rfl, rfl⟩

theorem treeKept_closeIgnored (closee : Option OpenId) : TreeKept (closeIgnored closee) := by
  cases closee with
  | none => exact .pure
  | some o => exact (treeKept_close o).attempt fun _ => .pure

theorem treeKept_abandonOpenFile : TreeKept (abandonOpenFile o) :=
  TreeKept.gets.bind fun _ => (treeKept_close o).ite .pure

theorem treeKept_installOpenFile : TreeKept (installOpenFile o) := by
  refine (treeKept_takeEntry 0 o).attempt fun r => ?_
  cases r with
  | ok fd => exact .pure
  | error e => exact (treeKept_abandonOpenFile o).bind fun _ => .fail

theorem treeKept_fetch (fd : Int) : TreeKept (fetch fd) := .of_reads (reads_fetch fd)

theorem treeKept_dup (fd : Int) : TreeKept (dup fd) :=
  (treeKept_fetch fd).bind fun o => treeKept_takeEntry 0 o

theorem treeKept_fcntlDupFd (fd arg : Int) : TreeKept (fcntlDupFd fd arg) :=
  (treeKept_fetch fd).bind fun o => TreeKept.failIf.bind fun _ => treeKept_takeEntry arg.toNat o

theorem treeKept_admitOpenFile : TreeKept (admitOpenFile o) :=
  .of_reads fun _ => reads_admitOpenFile o

theorem treeKept_dup3 (oldfd newfd : Int) (flags : Nat) : TreeKept (dup3 oldfd newfd flags) := by
  refine TreeKept.failIf.bind fun _ => TreeKept.failIf.bind fun _ => ?_
  refine (treeKept_fetch oldfd).bind fun o => TreeKept.failIf.bind fun _ => ?_
  refine TreeKept.gets.bind fun replaced => TreeKept.bind ?_ fun _ => ?_
  · cases replaced with
    | none => exact .pure
    | some x => exact treeKept_admitOpenFile x
  · refine (treeKept_setEntry newfd.toNat (some o)).bind fun closee => ?_
    exact (treeKept_closeIgnored closee).bind fun _ => .pure

theorem treeKept_dup2 (oldfd newfd : Int) : TreeKept (dup2 oldfd newfd) :=
  TreeKept.ite ((treeKept_fetch oldfd).bind fun _ => .pure) (treeKept_dup3 oldfd newfd 0)

theorem treeKept_fdClose (fd : Int) : TreeKept (fdClose fd) := by
  refine TreeKept.gets.bind fun found => ?_
  cases found with
  | none => exact .fail
  | some o =>
    refine TreeKept.bind ?_ fun _ => (treeKept_setEntry fd.toNat none).bind fun closee => ?_
    · refine (treeKept_admitOpenFile o).attempt fun r => ?_
      cases r with
      | ok _ => exact .pure
      | error _ => exact .fail
    · cases closee with
      | none => exact .pure
      | some x => exact treeKept_close x

theorem treeKept_closeAll (os : List OpenId) : TreeKept (closeAll os) := by
  induction os with
  | nil => exact .pure
  | cons o os ih => exact ((treeKept_close o).attempt fun _ => .pure).bind fun _ => ih

theorem FS.keepsTree_detachFrom (keep : FS → OpenId → Bool) (n : Nat) :
    ∀ (fd : Nat) (s : FS), s.KeepsTree (FS.detachFrom keep n fd s).1 := by
  induction n with
  | zero => exact fun _ s => .refl s
  | succ n ih =>
    intro fd s
    unfold FS.detachFrom
    refine FS.KeepsTree.trans ?_ (ih (fd + 1) _)
    split
    · split
      · exact .refl s
      · exact s.keepsTree_setEntry fd none
    · exact s.keepsTree_setEntry fd none

theorem treeKept_modify {f : FS → FS} (h : ∀ s : FS, s.KeepsTree (f s)) : TreeKept (Prog.modify f) := by
  refine treeKept_of_step fun s s' r hr => ?_
  cases hr
  exact h s

theorem treeKept_detachAll : TreeKept detachAll :=
  TreeKept.gets.bind fun os =>
    (treeKept_modify fun s => FS.keepsTree_detachFrom _ _ 0 s).bind fun _ => treeKept_closeAll os

theorem treeKept_detachBackend (backend : Option Backend) : TreeKept (detachBackend backend) :=
  TreeKept.gets.bind fun os =>
    (treeKept_modify fun s => FS.keepsTree_detachFrom _ _ 0 s).bind fun _ => treeKept_closeAll os

end TreeKept

end WasmFS
