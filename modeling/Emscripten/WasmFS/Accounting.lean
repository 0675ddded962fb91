-- SUMMARY: The accounts of the descriptor table: use counts, and the opens and closes that each description owes.
import Mathlib.Data.List.Count
import Emscripten.WasmFS.Sound

/-!
# Accounts

`Accounted` says what the descriptor table, the use counts and the log of opens and
closes have to do with each other. In the middle of a call some descriptions are
pending: they are open but in no slot, because they have not been installed yet or
because their last slot has been cleared and the close is still to come.
-/

namespace WasmFS

/-! ## Slots -/

variable {x : OpenId}

section Slots

variable {s : FS} {fd : Nat} {o : Option OpenId}

/-- The table, grown far enough for `fd`. -/
def FS.grownTable (s : FS) (fd : Nat) : List (Option OpenId) :=
  s.fileTable ++ List.replicate (fd + 1 - s.fileTable.length) none

theorem FS.lt_length_grownTable (s : FS) (fd : Nat) : fd < (s.grownTable fd).length := by
  simp only [grownTable, List.length_append, List.length_replicate]
  omega

theorem FS.getEntry_ofNat (s : FS) (fd : Nat) : s.getEntry fd = (s.fileTable[fd]?).join := by
  unfold getEntry
  split
  · next h =>
      have hle : s.fileTable.length ≤ fd := by omega
      rw [List.getElem?_eq_none hle]
      rfl
  · simp

theorem FS.getEntry_neg {fd : Int} (h : fd < 0) : s.getEntry fd = none := by
  unfold getEntry
  rw [if_pos (.inl h)]

/-- The slots hold what `getEntry` says. -/
theorem FS.mem_fileTable_iff {o : OpenId} :
    some o ∈ s.fileTable ↔ ∃ fd : Nat, s.getEntry fd = some o := by
  refine ⟨?_, fun ⟨fd, h⟩ => FS.mem_of_getEntry h⟩
  intro h
  obtain ⟨fd, hfd⟩ := List.mem_iff_getElem?.mp h
  refine ⟨fd, ?_⟩
  rw [FS.getEntry_ofNat, hfd]
  rfl

theorem FS.grownTable_getElem? (s : FS) (fd i : Nat) :
    ((s.grownTable fd)[i]?).join = s.getEntry i := by
  rw [FS.getEntry_ofNat]
  unfold grownTable
  rw [List.getElem?_append]
  split
  · rfl
  · next h =>
      rw [List.getElem?_eq_none (Nat.le_of_not_lt h), List.getElem?_replicate]
      split <;> rfl

theorem FS.count_grownTable (s : FS) (fd : Nat) (x : OpenId) :
    (s.grownTable fd).count (some x) = s.fileTable.count (some x) := by
  have hnone : (List.replicate (fd + 1 - s.fileTable.length) none).count (some x) = 0 := by
    apply List.count_eq_zero_of_not_mem
    intro h
    cases (List.mem_replicate.mp h).2
  unfold grownTable
  rw [List.count_append, hnone, Nat.add_zero]

/-! ## What setEntry does -/

theorem FS.setEntry_fileTable (s : FS) (fd : Nat) (o : Option OpenId) :
    (s.setEntry fd o).1.fileTable = (s.grownTable fd).set fd o := by
  unfold FS.setEntry
  cases o with
  | none =>
    simp only []
    split <;> rfl
  | some x =>
    simp only []
    split <;> rfl

theorem FS.setEntry_getEntry (s : FS) (fd : Nat) (o : Option OpenId) (i : Int) :
    (s.setEntry fd o).1.getEntry i = if i = fd then o else s.getEntry i := by
  rcases Int.lt_or_le i 0 with hneg | hnonneg
  · rw [FS.getEntry_neg hneg, FS.getEntry_neg hneg, if_neg (by omega)]
  · obtain ⟨n, rfl⟩ := Int.eq_ofNat_of_zero_le hnonneg
    rw [FS.getEntry_ofNat, FS.setEntry_fileTable, List.getElem?_set]
    by_cases hn : n = fd
    · subst hn
      rw [if_pos rfl, if_pos (s.lt_length_grownTable n), if_pos rfl]
      rfl
    · rw [if_neg (Ne.symm hn), if_neg (by omega), FS.grownTable_getElem?]

/-- The use of a description changes by the slots it gains and loses. -/
theorem FS.setEntry_count (s : FS) (fd : Nat) (o : Option OpenId) (x : OpenId) :
    (((s.setEntry fd o).1.fileTable.count (some x) : Nat) : Int) =
      s.fileTable.count (some x) + (if o = some x then 1 else 0)
        - (if s.getEntry fd = some x then 1 else 0) := by
  have hlt := s.lt_length_grownTable fd
  have hold : (s.grownTable fd)[fd] = s.getEntry fd := by
    have h := s.grownTable_getElem? fd fd
    rw [List.getElem?_eq_getElem hlt] at h
    exact h
  rw [FS.setEntry_fileTable, List.count_set hlt, FS.count_grownTable, hold]
  simp only [beq_iff_eq]
  by_cases hx : s.getEntry fd = some x
  · have hpos : 0 < s.fileTable.count (some x) := List.count_pos_iff.mpr (FS.mem_of_getEntry hx)
    simp only [hx, if_true]
    split <;> omega
  · simp only [hx, if_false]
    split <;> omega

theorem FS.addUses_openFile (s : FS) (y : OpenId) (n : Int) (x : OpenId) :
    (s.addUses y n).openFile x =
      if x = y then { s.openFile y with uses := (s.openFile y).uses + n } else s.openFile x := by
  simp [addUses, modifyOpen, Function.update_apply]

theorem FS.setEntry_openFile (s : FS) (fd : Nat) (o : Option OpenId) (x : OpenId) :
    ((s.setEntry fd o).1.openFile x).file = (s.openFile x).file ∧
    ((s.setEntry fd o).1.openFile x).uses = (s.openFile x).uses + (if o = some x then 1 else 0)
        - (if s.getEntry fd = some x then 1 else 0) := by
  have hgrown : ∀ y : OpenId, ((s.growTable fd).addUses y 1).getEntry fd = s.getEntry fd := by
    intro y
    rw [FS.getEntry_ofNat]
    exact s.grownTable_getElem? fd fd
  have hgrown' : (s.growTable fd).getEntry fd = s.getEntry fd := by
    rw [FS.getEntry_ofNat]
    exact s.grownTable_getElem? fd fd
  unfold FS.setEntry
  cases o with
  | none =>
    simp only [hgrown']
    cases s.getEntry fd with
    | none => simp [putSlot, growTable]
    | some old =>
      have hopen : ((s.growTable fd).dropEntry old).openFile x =
          if x = old then { s.openFile old with uses := (s.openFile old).uses + -1 }
          else s.openFile x := by
        unfold dropEntry
        rw [addUses_openFile]
        rfl
      simp only [putSlot, hopen, Option.some.injEq]
      by_cases hx : x = old
      · subst hx
        simp
        omega
      · simp [hx, Ne.symm hx]
  | some y =>
    simp only [hgrown]
    cases s.getEntry fd with
    | none =>
      have hopen := (s.growTable fd).addUses_openFile y 1 x
      simp only [putSlot, hopen, Option.some.injEq]
      by_cases hx : x = y
      · subst hx
        simp [growTable]
      · simp [growTable, hx, Ne.symm hx]
    | some old =>
      have hopen : (((s.growTable fd).addUses y 1).dropEntry old).openFile x =
          if x = old then { ((s.growTable fd).addUses y 1).openFile old with
            uses := (((s.growTable fd).addUses y 1).openFile old).uses + -1 }
          else ((s.growTable fd).addUses y 1).openFile x := by
        unfold dropEntry
        rw [addUses_openFile]
        rfl
      simp only [putSlot, hopen, Option.some.injEq]
      by_cases hx : x = old
      · subst hx
        by_cases hy : y = x
        · subst hy
          simp [addUses_openFile, growTable] <;> omega
        · simp [addUses_openFile, growTable, hy, Ne.symm hy] <;> omega
      · by_cases hy : y = x
        · subst hy
          simp [addUses_openFile, growTable, hx, Ne.symm hx]
        · simp [addUses_openFile, growTable, hx, Ne.symm hx, hy, Ne.symm hy]

theorem FS.clearRecordLocks_kind (s : FS) (f g : FileId) :
    ((s.clearRecordLocks f).file g).kind = (s.file g).kind := by
  unfold clearRecordLocks
  rw [modifyFile_file]
  split
  · next h => rw [h]
  · rfl

theorem FS.clearRecordLocks_backend (s : FS) (f g : FileId) :
    ((s.clearRecordLocks f).file g).backend = (s.file g).backend := by
  unfold clearRecordLocks
  rw [modifyFile_file]
  split
  · next h => rw [h]
  · rfl

theorem FS.setEntry_kind (s : FS) (fd : Nat) (o : Option OpenId) (f : FileId) :
    ((s.setEntry fd o).1.file f).kind = (s.file f).kind := by
  unfold FS.setEntry
  cases o with
  | none =>
    simp only []
    split
    · rfl
    · exact clearRecordLocks_kind _ _ f
  | some x =>
    simp only []
    split
    · rfl
    · exact clearRecordLocks_kind _ _ f

theorem FS.setEntry_rest (s : FS) (fd : Nat) (o : Option OpenId) :
    (s.setEntry fd o).1.nextOpen = s.nextOpen ∧ (s.setEntry fd o).1.nextFile = s.nextFile ∧
      (s.setEntry fd o).1.log = s.log ∧ (s.setEntry fd o).1.cwd = s.cwd := by
  unfold FS.setEntry
  cases o with
  | none =>
    simp only []
    split <;> exact ⟨rfl, rfl, rfl, rfl⟩
  | some x =>
    simp only []
    split <;> exact ⟨rfl, rfl, rfl, rfl⟩

theorem FS.isData_congr {s s' : FS} (hfile : (s'.openFile x).file = (s.openFile x).file)
    (hkind : (s'.file (s.openFile x).file).kind = (s.file (s.openFile x).file).kind) :
    s'.isData x ↔ s.isData x := by
  unfold isData
  rw [hfile, hkind]

theorem FS.setEntry_isData (s : FS) (fd : Nat) (o : Option OpenId) (x : OpenId) :
    (s.setEntry fd o).1.isData x ↔ s.isData x :=
  FS.isData_congr (s.setEntry_openFile fd o x).1 (s.setEntry_kind fd o _)

/-- `setEntry` reports the description it has taken the last slot from, if it is one of
a data file. -/
theorem FS.setEntry_closee (s : FS) (fd : Nat) (o : Option OpenId) (x : OpenId) :
    (s.setEntry fd o).2 = some x ↔
      s.getEntry fd = some x ∧ ((s.setEntry fd o).1.openFile x).uses = 0 ∧ s.isData x := by
  rw [← s.setEntry_isData fd o x]
  have hgrown : ∀ y : OpenId, ((s.growTable fd).addUses y 1).getEntry fd = s.getEntry fd := by
    intro y
    rw [FS.getEntry_ofNat]
    exact s.grownTable_getElem? fd fd
  have hgrown' : (s.growTable fd).getEntry fd = s.getEntry fd := by
    rw [FS.getEntry_ofNat]
    exact s.grownTable_getElem? fd fd
  have hreport : ∀ (u : FS) (old : OpenId),
      (if (u.openFile old).uses = 0 ∧ u.isData old then some old else none) = some x ↔
        some old = some x ∧ ((u.putSlot fd o).openFile x).uses = 0 ∧ (u.putSlot fd o).isData x := by
    intro u old
    rw [Option.ite_none_right_eq_some, Option.some.injEq]
    refine ⟨?_, ?_⟩
    · rintro ⟨h, rfl⟩
      exact ⟨rfl, h⟩
    · rintro ⟨rfl, h⟩
      exact ⟨h, rfl⟩
  unfold FS.setEntry
  cases o with
  | none =>
    simp only [hgrown']
    cases s.getEntry fd with
    | none => simp
    | some old => exact hreport _ old
  | some y =>
    simp only [hgrown]
    cases s.getEntry fd with
    | none => simp
    | some old => exact hreport _ old

end Slots

/-! ## The accounts -/

/-- The accounts are in order, the descriptions in `pending` apart: those are open and
in no slot. -/
structure FS.Accounted (s : FS) (pending : OpenId → Prop) : Prop where
  table_lt : ∀ x, some x ∈ s.fileTable → x < s.nextOpen
  pending_lt : ∀ x, pending x → x < s.nextOpen
  pending_out : ∀ x, pending x → some x ∉ s.fileTable
  file_lt : ∀ x, x < s.nextOpen → (s.openFile x).file < s.nextFile
  uses : ∀ x, x < s.nextOpen → (s.openFile x).uses = (s.fileTable.count (some x) : Nat)
  opened : ∀ x, s.log.count (.opened x) = if x < s.nextOpen ∧ s.isData x then 1 else 0
  closed_zero : ∀ x, ¬ (x < s.nextOpen ∧ s.isData x) ∨ some x ∈ s.fileTable ∨ pending x →
    s.log.count (.closed x) = 0
  closed_one : ∀ x, x < s.nextOpen → s.isData x → some x ∉ s.fileTable → ¬ pending x →
    s.log.count (.closed x) = 1

/-- Nothing is pending. -/
def nothing : OpenId → Prop := fun _ => False

section Accounts

variable {s s' : FS} {pending : OpenId → Prop}

theorem FS.Accounted.tableWithin (h : s.Accounted pending) : s.TableWithin :=
  fun o ho => h.file_lt o (h.table_lt o ho)

theorem FS.Accounted.congr {pending' : OpenId → Prop} (h : s.Accounted pending)
    (heq : ∀ x, pending' x ↔ pending x) : s.Accounted pending' := by
  have hsame : pending' = pending := funext fun x => propext (heq x)
  rw [hsame]
  exact h

/-- Nothing has happened to the descriptor table and the log, and the files of the open
descriptions are what they were. -/
structure FS.KeepsTable (s s' : FS) : Prop where
  nextFile : s.nextFile ≤ s'.nextFile
  kind : ∀ f, f < s.nextFile → (s'.file f).kind = (s.file f).kind
  backend : ∀ f, f < s.nextFile → (s'.file f).backend = (s.file f).backend
  fileTable : s'.fileTable = s.fileTable
  openedFile : ∀ o, (s'.openFile o).file = (s.openFile o).file
  uses : ∀ o, (s'.openFile o).uses = (s.openFile o).uses
  nextOpen : s'.nextOpen = s.nextOpen
  log : s'.log = s.log

theorem FS.KeepsTable.refl (s : FS) : s.KeepsTable s :=
  ⟨Nat.le_refl _, fun _ _ => rfl, fun _ _ => rfl, rfl, fun _ => rfl, fun _ => rfl, rfl, rfl⟩

theorem FS.KeepsTable.trans {s'' : FS} (h : s.KeepsTable s') (h' : s'.KeepsTable s'') :
    s.KeepsTable s'' where
  nextFile := Nat.le_trans h.nextFile h'.nextFile
  kind f hf := (h'.kind f (Nat.lt_of_lt_of_le hf h.nextFile)).trans (h.kind f hf)
  backend f hf := (h'.backend f (Nat.lt_of_lt_of_le hf h.nextFile)).trans (h.backend f hf)
  fileTable := h'.fileTable.trans h.fileTable
  openedFile o := (h'.openedFile o).trans (h.openedFile o)
  uses o := (h'.uses o).trans (h.uses o)
  nextOpen := h'.nextOpen.trans h.nextOpen
  log := h'.log.trans h.log

theorem FS.KeepsTable.getEntry (h : s.KeepsTable s') (fd : Int) : s'.getEntry fd = s.getEntry fd := by
  unfold FS.getEntry
  rw [h.fileTable]

theorem FS.Accounted.keep (h : s.Accounted pending) (hk : s.KeepsTable s') :
    s'.Accounted pending := by
  have hdata : ∀ x, x < s.nextOpen → (s'.isData x ↔ s.isData x) := fun x hx =>
    FS.isData_congr (hk.openedFile x) (hk.kind _ (h.file_lt x hx))
  have hopen : ∀ x, (x < s'.nextOpen ∧ s'.isData x) ↔ (x < s.nextOpen ∧ s.isData x) := by
    intro x
    rw [hk.nextOpen]
    exact and_congr_right (hdata x)
  refine ⟨?_, ?_, ?_, ?_, ?_, ?_, ?_, ?_⟩
  · rw [hk.fileTable, hk.nextOpen]
    exact h.table_lt
  · rw [hk.nextOpen]
    exact h.pending_lt
  · rw [hk.fileTable]
    exact h.pending_out
  · rw [hk.nextOpen]
    intro x hx
    rw [hk.openedFile]
    exact Nat.lt_of_lt_of_le (h.file_lt x hx) hk.nextFile
  · rw [hk.nextOpen, hk.fileTable]
    intro x hx
    rw [hk.uses]
    exact h.uses x hx
  · intro x
    rw [hk.log, h.opened x]
    simp only [hopen]
  · intro x
    rw [hk.log, hk.fileTable, hopen]
    exact h.closed_zero x
  · rw [hk.nextOpen, hk.log, hk.fileTable]
    intro x hx hd
    exact h.closed_one x hx ((hdata x hx).mp hd)

theorem FS.setEntry_mem {fd : Nat} {o : Option OpenId} (hx : some x ∈ (s.setEntry fd o).1.fileTable) :
    o = some x ∨ some x ∈ s.fileTable := by
  obtain ⟨i, hi⟩ := FS.mem_fileTable_iff.mp hx
  rw [FS.setEntry_getEntry] at hi
  split at hi
  · exact .inl hi
  · exact .inr (FS.mem_of_getEntry hi)

/-- A description that has left the table has left it through this slot. -/
theorem FS.getEntry_of_gone {fd : Nat} {o : Option OpenId} (hx : some x ∈ s.fileTable)
    (hgone : some x ∉ (s.setEntry fd o).1.fileTable) : s.getEntry fd = some x := by
  obtain ⟨i, hi⟩ := FS.mem_fileTable_iff.mp hx
  by_cases hfd : i = fd
  · rw [← hfd]
    exact hi
  · refine absurd (FS.mem_fileTable_iff.mpr ⟨i, ?_⟩) hgone
    rw [FS.setEntry_getEntry, if_neg (by omega)]
    exact hi

/-- Clearing or filling a slot: what is put in has been open, and what leaves the table
for good is pending until it is closed. -/
theorem FS.Accounted.setEntry (h : s.Accounted pending) (fd : Nat) (o : Option OpenId)
    (ho : ∀ x, o = some x → some x ∈ s.fileTable ∨ pending x) :
    (s.setEntry fd o).1.Accounted fun x =>
      (pending x ∧ o ≠ some x) ∨ (s.setEntry fd o).2 = some x := by
  obtain ⟨hnextOpen, hnextFile, hlog, _⟩ := s.setEntry_rest fd o
  have hlt : ∀ x, o = some x → x < s.nextOpen := by
    intro x hx
    rcases ho x hx with hin | hp
    · exact h.table_lt x hin
    · exact h.pending_lt x hp
  have huses : ∀ x, x < s.nextOpen → ((s.setEntry fd o).1.openFile x).uses =
      ((s.setEntry fd o).1.fileTable.count (some x) : Nat) := by
    intro x hx
    rw [(s.setEntry_openFile fd o x).2, s.setEntry_count, h.uses x hx]
  have hclosee : ∀ x, (s.setEntry fd o).2 = some x →
      some x ∈ s.fileTable ∧ some x ∉ (s.setEntry fd o).1.fileTable := by
    intro x hx
    obtain ⟨hin, hzero, _⟩ := (s.setEntry_closee fd o x).mp hx
    have hmem := FS.mem_of_getEntry hin
    refine ⟨hmem, ?_⟩
    rw [huses x (h.table_lt x hmem)] at hzero
    exact List.count_eq_zero.mp (by exact_mod_cast hzero)
  refine ⟨?_, ?_, ?_, ?_, ?_, ?_, ?_, ?_⟩
  · intro x hx
    rw [hnextOpen]
    rcases FS.setEntry_mem hx with hx | hx
    · exact hlt x hx
    · exact h.table_lt x hx
  · rintro x (⟨hp, _⟩ | hc)
    · exact hnextOpen ▸ h.pending_lt x hp
    · exact hnextOpen ▸ h.table_lt x (hclosee x hc).1
  · rintro x (⟨hp, hne⟩ | hc)
    · intro hx
      rcases FS.setEntry_mem hx with hx | hx
      · exact hne hx
      · exact h.pending_out x hp hx
    · exact (hclosee x hc).2
  · intro x hx
    rw [hnextOpen] at hx
    rw [(s.setEntry_openFile fd o x).1, hnextFile]
    exact h.file_lt x hx
  · intro x hx
    exact huses x (hnextOpen ▸ hx)
  · intro x
    rw [hlog, h.opened x, hnextOpen]
    simp only [s.setEntry_isData fd o x]
  · intro x hx
    rw [hlog]
    apply h.closed_zero
    rw [hnextOpen, s.setEntry_isData] at hx
    rcases hx with hx | hx | ⟨hp, _⟩ | hc
    · exact .inl hx
    · rcases FS.setEntry_mem hx with hx | hx
      · exact .inr (ho x hx)
      · exact .inr (.inl hx)
    · exact .inr (.inr hp)
    · exact .inr (.inl (hclosee x hc).1)
  · intro x hx hdata hout hnot
    rw [hlog]
    rw [hnextOpen] at hx
    rw [s.setEntry_isData] at hdata
    have hne : o ≠ some x := by
      intro heq
      apply hout
      apply FS.mem_fileTable_iff.mpr
      refine ⟨fd, ?_⟩
      rw [FS.setEntry_getEntry, if_pos rfl]
      exact heq
    apply h.closed_one x hx hdata
    · intro hin
      apply hnot
      refine .inr ((s.setEntry_closee fd o x).mpr ⟨FS.getEntry_of_gone hin hout, ?_, hdata⟩)
      rw [huses x hx, List.count_eq_zero_of_not_mem hout]
      rfl
    · intro hp
      exact hnot (.inl ⟨hp, hne⟩)

/-- The close of a pending description settles it. -/
theorem FS.Accounted.close (h : s.Accounted pending) {o : OpenId} (hp : pending o)
    (hdata : s.isData o) :
    (s.logged (.closed o :: s.log)).Accounted fun x => pending x ∧ x ≠ o := by
  have hothers : ∀ e, e ≠ .closed o → (s.logged (.closed o :: s.log)).log.count e = s.log.count e :=
    fun e he => List.count_cons_of_ne he.symm
  refine ⟨h.table_lt, fun x hx => h.pending_lt x hx.1, fun x hx => h.pending_out x hx.1, h.file_lt,
    h.uses, ?_, ?_, ?_⟩
  · intro x
    rw [hothers _ (by intro heq; cases heq)]
    exact h.opened x
  · intro x hx
    have hne : x ≠ o := by
      rintro rfl
      rcases hx with hx | hx | hx
      · exact hx ⟨h.pending_lt x hp, hdata⟩
      · exact h.pending_out x hp hx
      · exact hx.2 rfl
    rw [hothers _ (fun heq => hne (FileEvent.closed.inj heq))]
    exact h.closed_zero x (hx.imp_right fun hx => hx.imp_right And.left)
  · intro x hx hd hout hnot
    by_cases hxo : x = o
    · subst hxo
      change (.closed x :: s.log : List FileEvent).count (.closed x) = 1
      rw [List.count_cons_self, h.closed_zero x (.inr (.inr hp))]
    · rw [hothers _ (fun heq => hxo (FileEvent.closed.inj heq))]
      exact h.closed_one x hx hd hout fun hpx => hnot ⟨hpx, hxo⟩

/-- What is no data file owes no close. -/
theorem FS.Accounted.settle (h : s.Accounted pending) {o : OpenId} (hdata : ¬ s.isData o) :
    s.Accounted fun x => pending x ∧ x ≠ o := by
  refine ⟨h.table_lt, fun x hx => h.pending_lt x hx.1, fun x hx => h.pending_out x hx.1, h.file_lt,
    h.uses, h.opened, ?_, ?_⟩
  · intro x hx
    exact h.closed_zero x (hx.imp_right fun hx => hx.imp_right And.left)
  · intro x hx hd hout hnot
    refine h.closed_one x hx hd hout fun hp => hnot ⟨hp, ?_⟩
    rintro rfl
    exact hdata hd

/-- A new description is pending until it is installed. -/
theorem FS.Accounted.create (h : s.Accounted pending) {x : OpenFileState} (hfile : x.file < s.nextFile)
    (huses : x.uses = 0) (log : List FileEvent)
    (hlog : log = if (s.file x.file).kind = .dataFile then .opened s.nextOpen :: s.log else s.log) :
    ((s.addOpen x).logged log).Accounted fun y => pending y ∨ y = s.nextOpen := by
  have hold : ∀ y, y < s.nextOpen → ((s.addOpen x).logged log).openFile y = s.openFile y := by
    intro y hy
    simp [logged, addOpen, Nat.ne_of_lt hy]
  have hnew : ((s.addOpen x).logged log).openFile s.nextOpen = x := by
    simp [logged, addOpen]
  have hdata : ∀ y, y < s.nextOpen →
      (((s.addOpen x).logged log).isData y ↔ s.isData y) := by
    intro y hy
    exact FS.isData_congr (by rw [hold y hy]) rfl
  have hdataNew : ((s.addOpen x).logged log).isData s.nextOpen ↔
      (s.file x.file).kind = .dataFile := by
    unfold isData
    rw [hnew]
    rfl
  have hclosed : ∀ y, log.count (.closed y) = s.log.count (.closed y) := by
    intro y
    rw [hlog]
    split
    · rw [List.count_cons_of_ne (by intro heq; cases heq)]
    · rfl
  have hopened : ∀ y, y ≠ s.nextOpen → log.count (.opened y) = s.log.count (.opened y) := by
    intro y hy
    rw [hlog]
    split
    · rw [List.count_cons_of_ne (by intro heq; cases heq; exact hy rfl)]
    · rfl
  refine ⟨?_, ?_, ?_, ?_, ?_, ?_, ?_, ?_⟩
  · intro y hy
    exact Nat.lt_succ_of_lt (h.table_lt y hy)
  · rintro y (hy | rfl)
    · exact Nat.lt_succ_of_lt (h.pending_lt y hy)
    · exact Nat.lt_succ_self _
  · rintro y (hy | rfl)
    · exact h.pending_out y hy
    · intro hin
      exact Nat.lt_irrefl _ (h.table_lt _ hin)
  · intro y hy
    rcases Nat.lt_or_eq_of_le (Nat.le_of_lt_succ hy) with hlt | rfl
    · rw [hold y hlt]
      exact h.file_lt y hlt
    · rw [hnew]
      exact hfile
  · intro y hy
    rcases Nat.lt_or_eq_of_le (Nat.le_of_lt_succ hy) with hlt | rfl
    · rw [hold y hlt]
      exact h.uses y hlt
    · rw [hnew, huses]
      have hout : some s.nextOpen ∉ s.fileTable := fun hin => Nat.lt_irrefl _ (h.table_lt _ hin)
      exact_mod_cast (List.count_eq_zero_of_not_mem hout).symm
  · intro y
    change log.count _ = _
    rcases Nat.lt_trichotomy y s.nextOpen with hlt | rfl | hgt
    · rw [hopened y (Nat.ne_of_lt hlt), h.opened y]
      refine if_congr ?_ rfl rfl
      rw [hdata y hlt]
      exact and_congr_left fun _ => iff_of_true hlt (Nat.lt_succ_of_lt hlt)
    · have hzero : s.log.count (.opened s.nextOpen) = 0 := by
        rw [h.opened, if_neg (fun hc => Nat.lt_irrefl _ hc.1)]
      by_cases hkind : (s.file x.file).kind = .dataFile
      · rw [if_pos ⟨Nat.lt_succ_self _, hdataNew.mpr hkind⟩, hlog, if_pos hkind,
          List.count_cons_self, hzero]
      · rw [if_neg (fun hc => hkind (hdataNew.mp hc.2)), hlog, if_neg hkind, hzero]
    · rw [hopened y (Nat.ne_of_gt hgt), h.opened y, if_neg (fun hc => Nat.lt_asymm hgt hc.1),
        if_neg (fun hc => Nat.not_lt_of_le (Nat.succ_le_of_lt hgt) hc.1)]
  · intro y hy
    apply (hclosed y).trans
    apply h.closed_zero
    rcases Nat.lt_trichotomy y s.nextOpen with hlt | rfl | hgt
    · rw [hdata y hlt] at hy
      rcases hy with hy | hy | hy | rfl
      · exact .inl fun hc => hy ⟨Nat.lt_succ_of_lt hlt, hc.2⟩
      · exact .inr (.inl hy)
      · exact .inr (.inr hy)
      · exact absurd hlt (Nat.lt_irrefl _)
    · exact .inl fun hc => Nat.lt_irrefl _ hc.1
    · exact .inl fun hc => Nat.lt_asymm hgt hc.1
  · intro y hy hd hout hnot
    apply (hclosed y).trans
    rcases Nat.lt_or_eq_of_le (Nat.le_of_lt_succ hy) with hlt | rfl
    · exact h.closed_one y hlt ((hdata y hlt).mp hd) hout fun hp => hnot (.inl hp)
    · exact absurd (.inr rfl) hnot

end Accounts

end WasmFS
