-- SUMMARY: What holds in every state of the terminal drain, and the call that passes its fence.
import Emscripten.WasmFS.DrainRuns

/-!
# Safety of the terminal drain

`Safe` collects what the callers of a drain rely on. The fence is closed for the operations
that begin after the drain was called; the wait is for the ones that were open then, and
these may still enter public functions.
-/

namespace WasmFS

open Machine ThreadPool

namespace Drain

variable {T B : Type} [Fintype T] [DecidableEq T] [DecidableEq B]

structure Safe (main : T → Bool) (s : Drain T B) : Prop where
  /-- Each thread with an outermost operation counts once. -/
  count : s.activeOperations = (Finset.univ.filter fun t => .outermost ∈ (s.thread t).scopes).card
  /-- Past the fence: within an operation the drain waits for, or a write of the `fflush`. -/
  gate : ∀ t kind s', s.terminalState ≠ .running → s.enter t kind = some s' → s' ≠ s →
    (.outermost ∈ (s.thread t).scopes ∧ (s.thread t).pc = .idle ∧
        ∃ u, u ≠ t ∧ (s.thread u).pc = .waiting) ∨
      kind = .stdioFlushWrite ∧ (s.thread t).pc = .flushing
  bodies : s.bodies ≤ 1
  detach : ∀ t s', s.step main (.detach t) = some s' → s.activeOperations = 0 ∧
    (∀ fd : Nat, s'.fs.getEntry fd = none) ∧
    ∃ closees, s'.closees = some closees ∧ closees.Nodup ∧
      ∀ o, o ∈ closees ↔ some o ∈ s.fs.fileTable ∧ s.fs.isData o
  flush : ∀ t error s', s.step main (.flush t error) = some s' → s.tableLocked = false ∧
    ∃ o closees, s'.flushedFiles = o :: s.flushedFiles ∧ s.closees = some closees ∧ o ∈ closees ∧
      o ∉ s.flushedFiles
  close : ∀ t error s', s.step main (.close t error) = some s' → s.tableLocked = false ∧
    ∃ o closees, s'.closedFiles = o :: s.closedFiles ∧ s.closees = some closees ∧ o ∈ closees ∧
      o ∈ s.flushedFiles ∧ o ∉ s.closedFiles
  /-- A backend is told once, a lease owner when all the rest is done. -/
  told : ∀ t error releases s' x, s.finish t error releases = some s' → s'.told = x :: s.told →
    x.backend ∈ s.backendTable ∧ x.backend ∉ s.told.map Told.backend ∧
    (x.success = true ↔ ∀ e ∈ s.outcomes, e = 0) ∧
    s.closees = some s.closedFiles.reverse ∧ s.flushedFiles = s.closedFiles ∧
    (x.leaseOwner = true → s.owner x.backend = true ∧
      ∀ b ∈ s.backendTable, s.owner b = false → b ∈ s.told.map Told.backend)
  ended : s.terminalState = .drained ∨ s.terminalState = .failed →
    s.closees = some s.closedFiles.reverse ∧ s.flushedFiles = s.closedFiles ∧ s.flushedFiles.Nodup ∧
    (s.told.map Told.backend).Perm s.backendTable ∧ s.backendTable.Nodup ∧
    ∃ last first, s.told = last ++ first ∧ (∀ x ∈ last, x.leaseOwner = true) ∧
      ∀ x ∈ first, x.leaseOwner = false

variable {main : T → Bool} {s s' : Drain T B} {t : T}

omit [DecidableEq T] [DecidableEq B] in
theorem Fence.count_card (hi : s.Fence) :
    s.activeOperations = (Finset.univ.filter fun t => .outermost ∈ (s.thread t).scopes).card := by
  rw [hi.count, Finset.card_filter]
  rfl

omit [DecidableEq B] in
theorem Fence.gate {kind : OperationKind} (hi : s.Fence) (hrun : s.terminalState ≠ .running)
    (h : s.enter t kind = some s') (hne : s' ≠ s) :
    (.outermost ∈ (s.thread t).scopes ∧ (s.thread t).pc = .idle ∧
        ∃ u, u ≠ t ∧ (s.thread u).pc = .waiting) ∨
      kind = .stdioFlushWrite ∧ (s.thread t).pc = .flushing := by
  refine ((hi.enter h).2 hne hrun).imp_left fun ⟨hmem, hidle⟩ => ⟨hmem, hidle, ?_⟩
  -- were no drain waiting, no operation would be open
  refine Classical.byContradiction fun hnone => ?_
  refine hi.held_zero (hi.quiet hrun fun u hu => hnone ⟨u, ?_, hu⟩) t hmem
  rintro rfl
  rw [hidle] at hu
  cases hu

omit [DecidableEq T] [DecidableEq B] in
theorem Inv.detached (hi : s.Inv) (ht : (s.thread t).pc = .flushed) :
    s.activeOperations = 0 ∧ (∀ fd : Nat, s.fs.detachAll.1.getEntry fd = none) ∧
      s.fs.detachAll.2.Nodup ∧
      ∀ o, o ∈ s.fs.detachAll.2 ↔ some o ∈ s.fs.fileTable ∧ s.fs.isData o := by
  obtain ⟨-, hblank, -⟩ := hi.place ht ⟨by simp, by simp, by simp⟩
  refine ⟨hi.quiet_body (t := t) (by rw [ht]; nofun) (by rw [ht]; nofun), fun fd => ?_,
    (hi.sound hblank.closees).accounts.detachAll⟩
  have hentry := FS.detachFrom_getEntry s.fs.fileTable.length 0 s.fs fd
  refine hentry.trans ?_
  split
  · rfl
  · next hout => rw [FS.getEntry_ofNat, List.getElem?_eq_none (by omega)]; rfl

omit [Fintype T] [DecidableEq T] [DecidableEq B] in
/-- The finalizers left are of backends that have not been told. -/
theorem Finished.fresh {leaseOwners : Bool} {b : B} {rest : List B} (hnodup : s.backendTable.Nodup)
    (hf : s.Finished leaseOwners (b :: rest)) (hb : s.releasesTerminalLease b = leaseOwners) :
    b ∈ s.backendTable ∧ b ∉ s.told.map Told.backend := by
  cases leaseOwners with
  | false =>
    obtain ⟨done, htable, htold, -⟩ := hf
    rw [htable] at hnodup ⊢
    refine ⟨List.mem_append_right done List.mem_cons_self, fun hmem => ?_⟩
    rw [htold, List.mem_reverse] at hmem
    exact (List.nodup_append.mp hnodup).2.2 b (List.mem_of_mem_filter hmem) b List.mem_cons_self rfl
  | true =>
    obtain ⟨hsame, done, last, first, htable, htold, hlast, -, hfirst, -⟩ := hf
    have howner : s.owner b = true := (hsame b List.mem_cons_self).symm.trans hb
    refine ⟨htable ▸ List.mem_append_right done List.mem_cons_self, fun hmem => ?_⟩
    rw [htold, List.map_append, List.mem_append, hlast, hfirst, List.mem_reverse,
      List.mem_reverse] at hmem
    rcases hmem with hmem | hmem
    · rw [htable] at hnodup
      exact (List.nodup_append.mp hnodup).2.2 b (List.mem_of_mem_filter hmem) b List.mem_cons_self rfl
    · simp [howner] at hmem

/-- A finalizer is called after all files are closed, a lease owner's after the ordinary ones. -/
theorem Inv.told {error : Int} {releases : Bool} {x : Told B} (hi : s.Inv)
    (h : s.finish t error releases = some s') (hx : s'.told = x :: s.told) :
    x.backend ∈ s.backendTable ∧ x.backend ∉ s.told.map Told.backend ∧
    (x.success = true ↔ ∀ e ∈ s.outcomes, e = 0) ∧
    s.closees = some s.closedFiles.reverse ∧ s.flushedFiles = s.closedFiles ∧
    (x.leaseOwner = true → s.owner x.backend = true ∧
      ∀ b ∈ s.backendTable, s.owner b = false → b ∈ s.told.map Told.backend) := by
  unfold Drain.finish at h
  split at h
  · next leaseOwners b rest ht =>
      obtain ⟨-, ⟨hcleaned, hfinished⟩, -⟩ := hi.place ht ⟨by simp, by simp, by simp⟩
      split at h
      · -- nobody was called
        cases h
        exact absurd hx (List.cons_ne_self x s.told).symm
      · next hb =>
          cases h
          obtain rfl : _ = x := (List.cons.inj hx).1
          have hb' : s.releasesTerminalLease b = leaseOwners := Classical.not_not.mp hb
          obtain ⟨hmem, hnot⟩ := hfinished.fresh hi.backends hb'
          refine ⟨hmem, hnot, decide_eq_true_iff.trans hi.result, hcleaned.closees, hcleaned.flushed,
            ?_⟩
          rintro rfl
          obtain ⟨hsame, done, last, first, -, htold, -, -, hfirst, -⟩ := hfinished
          refine ⟨(hsame b List.mem_cons_self).symm.trans hb', fun b' hb' howner => ?_⟩
          rw [htold, List.map_append, hfirst]
          simp [hb', howner]
  · cases h

omit [DecidableEq T] [DecidableEq B] in
theorem Inv.ended (hi : s.Inv) (h : s.terminalState = .drained ∨ s.terminalState = .failed) :
    s.closees = some s.closedFiles.reverse ∧ s.flushedFiles = s.closedFiles ∧ s.flushedFiles.Nodup ∧
    (s.told.map Told.backend).Perm s.backendTable ∧ s.backendTable.Nodup ∧
    ∃ last first, s.told = last ++ first ∧ (∀ x ∈ last, x.leaseOwner = true) ∧
      ∀ x ∈ first, x.leaseOwner = false := by
  obtain ⟨hcleaned, -, done, last, first, htable, htold, hlast, hlease, hfirst, hfirst'⟩ := hi.after h
  rw [List.append_nil] at htable
  refine ⟨hcleaned.closees, hcleaned.flushed, ?_, ?_, hi.backends, last, first, htold, hlease, hfirst'⟩
  · rw [hcleaned.flushed]
    exact List.nodup_reverse.mp (hi.nodup _ hcleaned.closees)
  · -- the lease owners and the others are the table
    rw [htold, List.map_append, hlast, hfirst, ← htable]
    refine ((List.reverse_perm _).append (List.reverse_perm _)).trans ?_
    exact List.filter_append_perm s.owner s.backendTable

theorem Inv.safe (hi : s.Inv) : s.Safe main where
  count := hi.count_card
  gate _ _ _ hrun h hne := hi.gate hrun h hne
  bodies := hi.bodies
  detach t s' h := by
    simp only [Drain.step] at h
    split at h
    · next ht =>
        cases h
        obtain ⟨hzero, hempty, hnodup, hmem⟩ := hi.detached ht
        exact ⟨hzero, hempty, _, rfl, hnodup, hmem⟩
    · cases h
  flush t error s' h := by
    simp only [Drain.step] at h
    split at h
    · next o rest ht =>
        cases h
        obtain ⟨-, ⟨hclosees, hflushed, -⟩, hlocked⟩ := hi.place ht ⟨by simp, by simp, by simp⟩
        refine ⟨Bool.eq_false_iff.mpr fun h => absurd (hlocked h) (by simp), o, _, rfl, hclosees, by simp, ?_⟩
        have hnodup := hi.nodup _ hclosees
        rw [hflushed, ← List.mem_reverse]
        exact fun hmem => (List.nodup_append.mp hnodup).2.2 o hmem o List.mem_cons_self rfl
    · cases h
  close t error s' h := by
    simp only [Drain.step] at h
    split at h
    · next o rest ht =>
        cases h
        obtain ⟨-, ⟨hclosees, hflushed, -⟩, hlocked⟩ := hi.place ht ⟨by simp, by simp, by simp⟩
        refine ⟨Bool.eq_false_iff.mpr fun h => absurd (hlocked h) (by simp), o, _, rfl, hclosees, by simp,
          by rw [hflushed]; exact List.mem_cons_self, ?_⟩
        have hnodup := hi.nodup _ hclosees
        rw [← List.mem_reverse]
        exact fun hmem => (List.nodup_append.mp hnodup).2.2 o hmem o List.mem_cons_self rfl
    · cases h
  told _ _ _ _ _ h hx := hi.told h hx
  ended := hi.ended

/-- A drain waits for the operations that are open, admits nothing else but the writes of its
`fflush`, and then flushes, closes and finishes everything once, lease owners last. -/
theorem drain_safe {root : Nat} {env : Env}
    (h : Reaches (Drain.step main) Permits (init (FS.init root env)) s) : s.Safe main :=
  (reaches_inv h).safe

/-! ## Runs of two threads -/

/-- A new instance. -/
def fresh : Drain Bool Bool := init (FS.init 0 .quiet)

/-- `true` drains while `false` is in a public function, and this one calls another. -/
theorem nested_admitted : ∃ s s' : Drain Bool Bool,
    Reaches (Drain.step fun _ => false) Permits fresh s ∧
    s.terminalState = .draining ∧ s.step (fun _ => false) (.enter false .general) = some s' ∧
    s' ≠ s ∧ (s'.thread false).scopes = [.nested, .outermost] := by
  obtain ⟨w, hw⟩ : ∃ w, exec (Drain.step fun _ => false) fresh
      [.enter false .general, .drain true] = some w := ⟨_, rfl⟩
  have hrun := reaches_of_exec (C := Permits) _ hw
    ⟨trivial, fun _ _ => ⟨trivial, fun _ _ => trivial⟩⟩
  cases hw
  refine ⟨_, _, hrun, rfl, rfl, fun h => ?_, rfl⟩
  have hscopes := congrArg (fun s : Drain Bool Bool => (s.thread false).scopes.length) h
  cases hscopes

/-- A thread adds two backends, `true` a lease owner, and then the other one drains. -/
def wholeDrain : List (DrainAction Bool Bool) :=
  [.enter false .general, .work false (FS.init 0 .quiet) [true, false] id, .drain true, .leave false,
    .wake true, .fflush true false 0, .detach true, .unlock true, .flush true 0, .close true 0,
    .flush true 0, .close true 0, .flush true 0, .close true 0, .collect true, .finish true 0 false,
    .finish true 0 false, .pass true, .finish true 0 false, .finish true 0 false, .pass true]

theorem drain_safe_whole : ∃ s : Drain Bool Bool,
    Reaches (Drain.step fun _ => false) Permits fresh s ∧
    s.terminalState = .drained ∧ s.closedFiles = [2, 1, 0] ∧ s.Safe fun _ => false := by
  have hend : (exec (Drain.step fun _ => false) fresh
      wholeDrain).map (fun s => (s.terminalState, s.closedFiles)) =
      some (.drained, [2, 1, 0]) := rfl
  obtain ⟨w, hw, hobs⟩ := Option.map_eq_some_iff.mp hend
  have hmeets : Meets (Drain.step fun _ => false) Permits
      fresh wholeDrain := by
    refine ⟨trivial, fun s₁ h₁ => ?_⟩
    cases h₁
    refine ⟨⟨.refl, by decide⟩, fun _ _ => ?_⟩
    repeat' first | exact trivial | refine ⟨trivial, fun _ _ => ?_⟩
  have hrun := reaches_of_exec _ hw hmeets
  exact ⟨w, hrun, congrArg Prod.fst hobs, congrArg Prod.snd hobs, drain_safe hrun⟩

end Drain

end WasmFS
