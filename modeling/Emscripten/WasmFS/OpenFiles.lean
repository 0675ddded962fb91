-- SUMMARY: Use counts, opens, closes and failing calls of the descriptor table, over every run of an instance.
import Emscripten.WasmFS.Runs

/-!
# Open file descriptions over whole runs

The accounts of the descriptor table hold in every reachable state. A call that fails
leaves the descriptors as they were, with one exception: `close` gives the descriptor
up before it closes the file, so an error of the file's own close comes after that.
-/

namespace WasmFS

open Prog

/-! ## The descriptor table -/

/-- The description exists, and its file is a data file. -/
def FS.IsOpened (s : FS) (o : OpenId) : Prop := o < s.nextOpen ∧ s.isData o

instance (s : FS) (o : OpenId) : Decidable (s.IsOpened o) := inferInstanceAs (Decidable (_ ∧ _))

theorem FS.Accounted.closed {s : FS} (h : s.Accounted nothing) (o : OpenId) :
    s.log.count (.closed o) = if s.IsOpened o ∧ some o ∉ s.fileTable then 1 else 0 := by
  split
  · next ho => exact h.closed_one o ho.1.1 ho.1.2 ho.2 id
  · next ho =>
      apply h.closed_zero
      by_cases hopened : s.IsOpened o
      · exact .inr (.inl (not_not.mp fun hout => ho ⟨hopened, hout⟩))
      · exact .inl hopened

/-- A failing call has changed no descriptor, or it is a `close` that had given its
descriptor up when the file's own close failed. -/
theorem FS.Sound.failed {s s' : FS} (h : s.Sound) {c : Call} {e : Errno}
    (hr : c.exec s = some (s', .error e)) :
    (∀ fd, s'.getEntry fd = s.getEntry fd) ∨
      ∃ fd o, c = .fdClose fd ∧ s.getEntry fd = some o ∧
        s'.env.close (s'.openFile o).file = .error e ∧
        ∀ i : Int, s'.getEntry i = if i = fd.toNat then none else s.getEntry i := by
  have hslots : Slots (s.OrNew fun f => f < s.nextFile) s.getEntry nothing s :=
    h.slots fun o ho => .inl (h.existing.opened o ho)
  by_cases hclose : ∃ fd, c = .fdClose fd
  · obtain ⟨fd, rfl⟩ := hclose
    rcases slots_fdClose _ _ fd s hslots s' (.error e) hr with hsame | ⟨hcleared, o, ho, herr⟩
    · exact .inl hsame.entries
    · exact .inr ⟨fd, o, rfl, ho, herr, hcleared.entries⟩
  · have hland := lands_exec h.tree h.existing (fun _ => id) c (fun fd hc => hclose ⟨fd, hc⟩)
    obtain ⟨_, hsame⟩ := hland _ hslots s' (.error e) hr
    exact .inl hsame.entries

/-- The descriptor table of every reachable state: each use count is the number of slots,
each description of a data file has been opened once, and closed once exactly if no slot
has it any more; and no failing call but `close` has changed a descriptor. -/
theorem openFiles_of_runs {s : FS} (h : Reachable s) :
    (∀ o, o < s.nextOpen → (s.openFile o).uses = (s.fileTable.count (some o) : Nat)) ∧
    (∀ o, s.log.count (.opened o) = if s.IsOpened o then 1 else 0) ∧
    (∀ o, s.log.count (.closed o) = if s.IsOpened o ∧ some o ∉ s.fileTable then 1 else 0) ∧
    ∀ (c : Call) (s' : FS) (e : Errno), c.exec s = some (s', .error e) →
      (∀ fd, s'.getEntry fd = s.getEntry fd) ∨
        ∃ fd o, c = .fdClose fd ∧ s.getEntry fd = some o ∧
          s'.env.close (s'.openFile o).file = .error e ∧
          ∀ i : Int, s'.getEntry i = if i = fd.toNat then none else s.getEntry i := by
  have hsound := h.sound
  refine ⟨hsound.accounts.uses, hsound.accounts.opened, hsound.accounts.closed, ?_⟩
  intro c s' e hr
  exact hsound.failed hr

/-! ### A file that cannot be closed -/

/-- An outside world in which the close of a file fails. -/
def Env.failingClose : Env := { Env.quiet with close := fun _ => .error Errno.EIO }

/-- An instance with a file of an external backend, open as descriptor 3. -/
def withExternalFile : FS :=
  (FS.init 0 Env.failingClose).after (.wasmfsCreateFile "/f".toList 0o666 (some (.external 1)))

theorem reachable_withExternalFile : Reachable withExternalFile :=
  (Reachable.init 0 Env.failingClose).after 1 _ rfl (by decide)

theorem openFiles_of_runs_externalFile :
    (withExternalFile.openFile 3).uses = 1 ∧ withExternalFile.log.count (.opened 3) = 1 ∧
      withExternalFile.log.count (.closed 3) = 0 := by
  obtain ⟨huses, hopened, hclosed, _⟩ := openFiles_of_runs reachable_withExternalFile
  refine ⟨(huses 3 ?_).trans ?_, (hopened 3).trans ?_, (hclosed 3).trans ?_⟩
  · decide
  · decide
  · decide
  · decide

/-- A failing close has released the descriptor. -/
theorem failed_close_releases_descriptor :
    ¬ ∀ (s : FS), Reachable s → ∀ (c : Call) (s' : FS) (e : Errno), c.exec s = some (s', .error e) →
      ∀ fd, s'.getEntry fd = s.getEntry fd := by
  intro hall
  have hrun : ∃ s', (Call.fdClose 3).exec withExternalFile = some (s', .error Errno.EIO) ∧
      s'.getEntry 3 = none := ⟨_, rfl, rfl⟩
  obtain ⟨s', hrun, hnone⟩ := hrun
  have hsame := hall _ reachable_withExternalFile _ s' _ hrun 3
  rw [hnone] at hsame
  have hopen : withExternalFile.getEntry 3 = some 3 := rfl
  rw [hopen] at hsame
  cases hsame

end WasmFS
