-- SUMMARY: The list of threads: the assignments by which a thread is put on it and taken off, one by one, and what they do to a ring.
import Emscripten.Lib.Ring

/-!
# The list of threads

Every thread block has pointers to the next and the previous one. The list is changed under
the list lock only, by a few assignments in a row; between two of them it is no ring.
-/

namespace Pthread

structure Links (T : Type) where
  next : T → Option T
  prev : T → Option T

inductive ListEdit (T : Type)
  /-- `__pthread_create` puts the new thread after the creating one. -/
  | link (self new : T)
  | unlink (t : T)
deriving DecidableEq

namespace ListEdit

variable {T : Type} [DecidableEq T]

/-- The assignments of an update. A null pointer is not followed. -/
def writes : ListEdit T → List (Links T → Option (Links T))
  | .link self new =>
    [fun k => some { k with next := Function.update k.next new (k.next self) },
      fun k => some { k with prev := Function.update k.prev new (some self) },
      fun k => (k.next new).map fun n => { k with prev := Function.update k.prev n (some new) },
      fun k => (k.prev new).map fun p => { k with next := Function.update k.next p (some new) }]
  | .unlink t =>
    [fun k => (k.next t).map fun n => { k with prev := Function.update k.prev n (k.prev t) },
      fun k => (k.prev t).map fun p => { k with next := Function.update k.next p (k.next t) },
      -- both pointers of the block itself
      fun k => some ⟨Function.update k.next t (some t), Function.update k.prev t (some t)⟩]

/-- Make assignments one after another. -/
def run : List (Links T → Option (Links T)) → Links T → Option (Links T)
  | [], k => some k
  | w :: ws, k => (w k).bind (run ws)

/-- The update can be made to a list of the threads `l`. -/
def Fits (l : List T) : ListEdit T → Prop
  | .link self new => self ∈ l ∧ new ∉ l
  | .unlink t => t ∈ l

/-- The threads on the list after the update. -/
def Member (l : List T) (u : T) : ListEdit T → Prop
  | .link _ new => u ∈ l ∨ u = new
  | .unlink t => u ∈ l ∧ u ≠ t

variable {k k' : Links T} {l : List T} {e : ListEdit T} {ws ws' : List (Links T → Option (Links T))}
  {w : Links T → Option (Links T)} {n : Nat}

omit [DecidableEq T] in
theorem run_append : run (ws ++ ws') k = (run ws k).bind (run ws') := by
  induction ws generalizing k with
  | nil => rfl
  | cons w ws ih =>
    change (w k).bind (run (ws ++ ws')) = ((w k).bind (run ws)).bind (run ws')
    cases w k with
    | none => rfl
    | some m => exact ih

omit [DecidableEq T] in
/-- One assignment more. -/
theorem run_take_succ (hw : ws[n]? = some w) :
    run (ws.take (n + 1)) k = (run (ws.take n) k).bind w := by
  have htake : ws.take (n + 1) = ws.take n ++ [w] := by
    rw [List.take_add_one, hw]
    rfl
  rw [htake, run_append]
  refine congrArg _ (funext fun m => ?_)
  change (w m).bind some = w m
  cases w m with
  | none => rfl
  | some m' => rfl

omit [DecidableEq T] in
/-- If all assignments can be made, the next one can. -/
theorem defined_of_run (hall : run ws k ≠ none) (hn : run (ws.take n) k = some k')
    (hw : ws[n]? = some w) : w k' ≠ none := by
  intro hnone
  have hsucc : run (ws.take (n + 1)) k = none := by
    rw [run_take_succ hw, hn]
    exact hnone
  apply hall
  rw [← List.take_append_drop (n + 1) ws, run_append, hsucc]
  rfl

/-- All assignments of an insertion: the new thread comes between its creator and the one
after it. -/
theorem run_link {self new : T} (hl : LinkedRing k.next k.prev l) (hself : self ∈ l) (hnew : new ∉ l) :
    ∃ k' l', run (link self new).writes k = some k' ∧ LinkedRing k'.next k'.prev l' ∧
      ∀ u, u ∈ l' ↔ u ∈ l ∨ u = new := by
  obtain ⟨l₁, l₂, rfl⟩ := List.append_of_mem hself
  -- listed so that the creator is the last
  have hrot : LinkedRing k.next k.prev (l₂ ++ l₁ ++ [self]) := hl.rotate.rotate_cons
  have hmem : ∀ u, u ∈ l₂ ++ l₁ ++ [self] ↔ u ∈ l₁ ++ self :: l₂ := by
    intro u
    simp only [List.mem_append, List.mem_cons, List.not_mem_nil, or_false]
    tauto
  rw [← hmem] at hnew
  have hnodup := hrot.nodup
  obtain ⟨h, m, hz⟩ : ∃ h m, l₂ ++ l₁ ++ [self] = h :: m := by
    cases hlist : l₂ ++ l₁ ++ [self] with
    | nil => exact absurd hlist (by simp)
    | cons h m => exact ⟨h, m, rfl⟩
  rw [hz] at hrot hnew hnodup
  have hlink : Linked k.next k.prev self h := ((LinkedRing.links_iff hz.symm).mp hrot.links).2
  have hns : new ≠ self := fun heq => hnew (by rw [← hz, heq]; simp)
  have hnh : new ≠ h := fun heq => hnew (heq ▸ List.mem_cons_self)
  have hrun : run (link self new).writes k = some
      ⟨Function.update (Function.update k.next new (some h)) self (some new),
        Function.update (Function.update k.prev new (some self)) h (some new)⟩ := by
    simp only [writes, run, Option.bind_some, hlink.1, Function.update_self, Option.map_some,
      Function.update_of_ne hnh]
  refine ⟨_, h :: m ++ [new], hrun, ?_, fun u => ?_⟩
  · refine hrot.insert hz.symm hnew (fun a ha => ?_) (fun a ha => ?_) ?_ ?_
    · have has : a ≠ self := by
        rw [← hz] at hnodup
        exact fun heq => (List.nodup_append.mp hnodup).2.2 a ha self (List.mem_singleton_self _) heq
      have han : a ≠ new := fun heq => hnew (by rw [← hz, ← heq]; exact List.mem_append_left _ ha)
      exact (Function.update_of_ne has ..).trans (Function.update_of_ne han ..)
    · have hah : a ≠ h := fun heq => (List.nodup_cons.mp hnodup).1 (heq ▸ ha)
      have han : a ≠ new := fun heq => hnew (heq ▸ List.mem_cons_of_mem _ ha)
      exact (Function.update_of_ne hah ..).trans (Function.update_of_ne han ..)
    · exact ⟨Function.update_self .., (Function.update_of_ne hnh ..).trans (Function.update_self ..)⟩
    · exact ⟨(Function.update_of_ne hns ..).trans (Function.update_self ..), Function.update_self ..⟩
  · rw [List.mem_append, ← hz, hmem, List.mem_singleton]

/-- All assignments of a removal. -/
theorem run_unlink {t : T} (hl : LinkedRing k.next k.prev l) (ht : t ∈ l) :
    ∃ k' l', run (unlink t).writes k = some k' ∧ LinkedRing k'.next k'.prev l' ∧
      ∀ u, u ∈ l' ↔ u ∈ l ∧ u ≠ t := by
  by_cases hself : k.next t = some t
  · have hl' := hl.eq_singleton ht hself
    subst hl'
    have hprev := hl.of_singleton.2
    have hrun : run (unlink t).writes k = some ⟨Function.update (Function.update k.next t (some t)) t
        (some t), Function.update (Function.update k.prev t (some t)) t (some t)⟩ := by
      simp only [writes, run, Option.bind_some, hself, hprev, Function.update_self, Option.map_some]
    refine ⟨_, [], hrun, .nil, fun u => ?_⟩
    rw [List.mem_singleton]
    exact iff_of_false (by nofun) fun h => h.2 h.1
  · obtain ⟨b, z, hb, hz, -, -, hbt, hzt, herase⟩ := hl.neighbours ht hself
    have hrun : run (unlink t).writes k = some
        ⟨Function.update (Function.update k.next z (some b)) t (some t),
          Function.update (Function.update k.prev b (some z)) t (some t)⟩ := by
      simp only [writes, run, Option.bind_some, hb, hz, Option.map_some,
        Function.update_of_ne hbt.symm]
    refine ⟨_, l.erase t, hrun, ?_, fun u => ?_⟩
    · refine herase _ _ (fun a haz hat => ?_) (fun a hab hat => ?_) ⟨?_, ?_⟩
      · exact (Function.update_of_ne hat ..).trans (Function.update_of_ne haz ..)
      · exact (Function.update_of_ne hat ..).trans (Function.update_of_ne hab ..)
      · exact (Function.update_of_ne hzt ..).trans (Function.update_self ..)
      · exact (Function.update_of_ne hbt ..).trans (Function.update_self ..)
    · rw [hl.nodup.mem_erase_iff]
      exact and_comm

/-- An update that fits the list makes a list of the threads that are to be on it. -/
theorem run_writes (hl : LinkedRing k.next k.prev l) (hfits : e.Fits l) :
    ∃ k' l', run e.writes k = some k' ∧ LinkedRing k'.next k'.prev l' ∧ ∀ u, u ∈ l' ↔ e.Member l u := by
  cases e with
  | link self new => exact run_link hl hfits.1 hfits.2
  | unlink t => exact run_unlink hl hfits

end ListEdit

end Pthread
