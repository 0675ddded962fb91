-- SUMMARY: Every index that `addFunction` returned calls its function, in runs that add no function left in the map.
import Emscripten.JsRuntime.FunctionTable

/-!
# Runs of adding and removing

Each index has at most one owner: the function it was given for, or the one found in it when the
map was made. The map tells of an owned index only the owner, but for the functions that were left in it.
-/

namespace FunctionTable

open Machine

variable {b : Build}

/-! ## Entries -/

/-- What an entry shows is the function in it, or a wrapper of it. -/
def Shows (h : Func) (g : Option Func) : Prop := h.invoked = g.bind Func.invoked

def Cached (s : State) : Prop := ∀ i g h, s.wrapperCache i = some (g, h) → Shows h g

structure Views (b : Build) (s : State) : Prop where
  cached : Cached s
  mirror : ∀ i, ∀ h ∈ s.wasmTableMirror i, ∃ g, s.wasmTable[i]? = some g ∧ Shows h g
  unused : b.mirrored = false → ∀ i, s.wasmTableMirror i = none

theorem shows_makeAbortWrapper (id : Nat) (g : Option Func) : Shows (makeAbortWrapper id g) g := by
  cases g with
  | none => rfl
  | some f => rfl

theorem shows_self (f : Func) : Shows f (some f) := rfl

/-- What looking up an entry leaves as it is. -/
structure SameTable (s s' : State) : Prop where
  wasmTable : s'.wasmTable = s.wasmTable
  free : s'.freeTableIndexes = s.freeTableIndexes
  map : s'.functionsInTableMap = s.functionsInTableMap

theorem SameTable.refl (s : State) : SameTable s s := ⟨rfl, rfl, rfl⟩

variable {s : State} {i : Nat} {g : Option Func}

theorem Cached.wrap (hc : Cached s) (i : Nat) (g : Option Func) (n : Nat) :
    Cached { s with
      wrapperCache := Function.update s.wrapperCache i (some (g, makeAbortWrapper s.fresh g)), fresh := n } := by
  intro j g' h hj
  by_cases hji : j = i
  · subst hji
    simp at hj
    obtain ⟨rfl, rfl⟩ := hj
    exact shows_makeAbortWrapper ..
  · exact hc j g' h (by simpa [hji] using hj)

/-- `wasmTable.get` on an index of the table. -/
theorem get_spec (hc : Cached s) (hi : s.wasmTable[i]? = some g) :
    SameTable s (get b i s).2 ∧ (get b i s).2.wasmTableMirror = s.wasmTableMirror ∧ Cached (get b i s).2 ∧
      (∀ h ∈ (get b i s).1, Shows h g) ∧ (g ≠ none → (get b i s).1 ≠ none) := by
  have hget : s.wasmTable.getD i none = g := by simp [List.getD, hi]
  have hwrap : ∀ h ∈ some (makeAbortWrapper s.fresh g), Shows h g := by
    simpa using shows_makeAbortWrapper s.fresh g
  unfold get
  simp only [hget]
  split
  · split
    · next f wrapper hcache =>
        split
        · next hf =>
            subst hf
            exact ⟨.refl s, rfl, hc, by simpa using hc i f wrapper hcache, by simp⟩
        · exact ⟨⟨rfl, rfl, rfl⟩, rfl, hc.wrap i g _, hwrap, by simp⟩
    · exact ⟨⟨rfl, rfl, rfl⟩, rfl, hc.wrap i g _, hwrap, by simp⟩
  · refine ⟨.refl s, rfl, hc, ?_, by simp⟩
    intro h hh
    cases hh
    exact shows_self h

/-- The mirror of one entry set to what the entry shows. -/
theorem Views.put (hc : Cached s) (hmir : b.mirrored = true) (hi : s.wasmTable[i]? = some g) (h : Option Func)
    (hshows : ∀ f ∈ h, Shows f g) (n : Nat)
    (hrest : ∀ j, j ≠ i → ∀ h ∈ s.wasmTableMirror j, ∃ g, s.wasmTable[j]? = some g ∧ Shows h g) :
    Views b { s with wasmTableMirror := Function.update s.wasmTableMirror i h, fresh := n } := by
  refine ⟨hc, fun j h' hh' => ?_, by simp [hmir]⟩
  by_cases hji : j = i
  · subst hji
    exact ⟨g, hi, hshows h' (by simpa using hh')⟩
  · exact hrest j hji h' (by simpa [hji] using hh')

theorem getWasmTableEntry_spec (hv : Views b s) (hi : s.wasmTable[i]? = some g) :
    SameTable s (getWasmTableEntry b i s).2 ∧ Views b (getWasmTableEntry b i s).2 ∧
      (∀ h ∈ (getWasmTableEntry b i s).1, Shows h g) ∧ (g ≠ none → (getWasmTableEntry b i s).1 ≠ none) := by
  obtain ⟨hsame, hmirror, hcached, hshows, hsome⟩ := get_spec (b := b) hv.cached hi
  have hviews : Views b (get b i s).2 := by
    refine ⟨hcached, ?_, ?_⟩
    · rw [hsame.wasmTable, hmirror]
      exact hv.mirror
    · rw [hmirror]
      exact hv.unused
  have hi' : (get b i s).2.wasmTable[i]? = some g := by rw [hsame.wasmTable, hi]
  unfold getWasmTableEntry
  split
  · next hmir =>
      split
      · next f hold =>
          obtain ⟨g', hg', hshown⟩ := hv.mirror i f hold
          have hg : g' = g := by simpa [hi] using hg'.symm
          subst hg
          exact ⟨.refl s, hv, by simpa using hshown, by simp⟩
      · cases hget : (get b i s).1 with
        | none =>
          simp only [hget]
          exact ⟨hsame, hviews, by simp, fun h => absurd hget (hsome h)⟩
        | some f =>
          have hf : ∀ h ∈ some f, Shows h g := by simpa using hshows f hget
          have hp : ∀ h ∈ some (Func.promising (get b i s).2.fresh f), Shows h g := by
            simpa [Shows, Func.invoked] using hshows f hget
          simp only [hget]
          split
          · exact ⟨⟨hsame.wasmTable, hsame.free, hsame.map⟩,
              .put hcached hmir hi' _ hp _ fun j _ => hviews.mirror j, hp, by simp⟩
          · exact ⟨⟨hsame.wasmTable, hsame.free, hsame.map⟩,
              .put hcached hmir hi' _ hf (get b i s).2.fresh fun j _ => hviews.mirror j, hf, by simp⟩
  · exact ⟨hsame, hviews, hshows, hsome⟩

theorem setWasmTableEntry_spec (hv : Views b s) (hi : i < s.wasmTable.length) (func : Option Func) :
    (setWasmTableEntry b i func s).wasmTable = s.wasmTable.set i func ∧
      (setWasmTableEntry b i func s).freeTableIndexes = s.freeTableIndexes ∧
      (setWasmTableEntry b i func s).functionsInTableMap = s.functionsInTableMap ∧
      Views b (setWasmTableEntry b i func s) := by
  have hset : ({ s with wasmTable := s.wasmTable.set i func } : State).wasmTable[i]? = some func := by
    simp [hi]
  have hother : ∀ j, j ≠ i → ∀ h ∈ s.wasmTableMirror j,
      ∃ g, (s.wasmTable.set i func)[j]? = some g ∧ Shows h g := by
    intro j hji h hh
    simpa [Ne.symm hji] using hv.mirror j h hh
  have hc : Cached { s with wasmTable := s.wasmTable.set i func } := hv.cached
  obtain ⟨hsame, hmirror, hcached, hshows, _⟩ := get_spec (b := b) hc hset
  unfold setWasmTableEntry
  split
  · next hmir =>
      refine ⟨hsame.wasmTable, hsame.free, hsame.map, ?_⟩
      refine .put hcached hmir (by rw [hsame.wasmTable, hset]) _ hshows _ ?_
      rw [hsame.wasmTable, hmirror]
      exact hother
  · next hmir =>
      have hnone := hv.unused (by simpa using hmir)
      exact ⟨rfl, rfl, rfl, hc, fun j h hh => by simp [hnone] at hh, fun _ => hnone⟩

/-! ## Owners -/

/-- `own` tells the owner of an index, and `Stale` which functions were left in the map. -/
structure Owned (b : Build) (s : State) (own : Nat → Option Func) (Stale : Func → Prop) : Prop where
  views : Views b s
  calls : ∀ i f, own i = some f → ∃ g, s.wasmTable[i]? = some (some g) ∧ g.invoked = f.invoked
  map : ∀ m ∈ s.functionsInTableMap, ∀ f i, m f = some i → own i = some f ∨ Stale f
  free : ∀ i ∈ s.freeTableIndexes, own i = none ∧ i < s.wasmTable.length
  nodup : s.freeTableIndexes.Nodup

variable {own : Nat → Option Func} {Stale : Func → Prop}

variable {f : Func}

theorem Owned.lt (ho : Owned b s own Stale) (hi : own i = some f) : i < s.wasmTable.length := by
  obtain ⟨g, hg, _⟩ := ho.calls i f hi
  exact (List.getElem?_eq_some_iff.mp hg).1

theorem Owned.mono (ho : Owned b s own Stale) {Stale' : Func → Prop} (h : ∀ f, Stale f → Stale' f) :
    Owned b s own Stale' :=
  ⟨ho.views, ho.calls, fun m hm f i hi => (ho.map m hm f i hi).imp id (h f), ho.free, ho.nodup⟩

/-- Looking up an entry leaves the owners. -/
theorem Owned.look (ho : Owned b s own Stale) (hi : i < s.wasmTable.length) :
    Owned b (getWasmTableEntry b i s).2 own Stale := by
  obtain ⟨hsame, hviews, _⟩ := getWasmTableEntry_spec (b := b) ho.views (List.getElem?_eq_getElem hi)
  refine ⟨hviews, ?_, ?_, ?_, ?_⟩
  · rw [hsame.wasmTable]
    exact ho.calls
  · rw [hsame.map]
    exact ho.map
  · rw [hsame.free, hsame.wasmTable]
    exact ho.free
  · rw [hsame.free]
    exact ho.nodup

/-- What is shown of an index that has an owner calls the owner. -/
theorem Owned.invokes (ho : Owned b s own Stale) (hi : own i = some f) : Invokes b s i f := by
  obtain ⟨g, hg, hcalls⟩ := ho.calls i f hi
  obtain ⟨_, _, hshows, hsome⟩ := getWasmTableEntry_spec (b := b) ho.views hg
  obtain ⟨h, hh⟩ := Option.ne_none_iff_exists'.mp (hsome (by simp))
  exact ⟨⟨g, hg, hcalls⟩, h, hh, (hshows h hh).trans hcalls⟩

/-- An index without an owner gets one. -/
theorem Owned.give (ho : Owned b s own Stale) {g : Func} (hnone : own i = none) (hfree : i ∉ s.freeTableIndexes)
    (hg : s.wasmTable[i]? = some (some g)) (hcalls : g.invoked = f.invoked) :
    Owned b s (Function.update own i (some f)) Stale := by
  refine ⟨ho.views, fun j f' hj => ?_, fun m hm f' j hj => ?_, fun j hj => ?_, ho.nodup⟩
  · by_cases hji : j = i
    · subst hji
      simp at hj
      subst hj
      exact ⟨g, hg, hcalls⟩
    · exact ho.calls j f' (by simpa [hji] using hj)
  · refine (ho.map m hm f' j hj).imp (fun hown => ?_) id
    have hji : j ≠ i := by
      rintro rfl
      simp [hnone] at hown
    simpa [hji] using hown
  · have hji : j ≠ i := fun h => hfree (h ▸ hj)
    simpa [hji] using ho.free j hj

/-- The map may tell of an index its owner. -/
theorem Owned.mapped (ho : Owned b s own Stale) (hf : own i = some f ∨ Stale f) :
    Owned b (mapSet f i s) own Stale := by
  refine ⟨⟨ho.views.cached, ho.views.mirror, ho.views.unused⟩, ho.calls, fun m hm f' j hj => ?_, ho.free, ho.nodup⟩
  obtain ⟨m', hm', rfl⟩ := Option.map_eq_some_iff.mp hm
  by_cases hff : f' = f
  · subst hff
    simp at hj
    subst hj
    exact hf
  · exact ho.map m' hm' f' j (by simpa [hff] using hj)

/-- The map is made of what the entries show. -/
theorem Owned.filled (ho : Owned b s own Stale) (hnull : ∀ f, f.invoked = none → Stale f)
    (hfree : s.freeTableIndexes = []) {m : Func → Option Nat} (hm : s.functionsInTableMap = some m)
    (count offset : Nat) (hnone : ∀ j, offset ≤ j → own j = none)
    (hlen : offset + count ≤ s.wasmTable.length) :
    ∃ own', Owned b (updateTableMap b offset count s) own' Stale ∧
      (updateTableMap b offset count s).freeTableIndexes = [] ∧
      (updateTableMap b offset count s).functionsInTableMap ≠ none := by
  induction count generalizing s own offset m with
  | zero => exact ⟨own, ho, hfree, by simp [updateTableMap, hm]⟩
  | succ count ih =>
    obtain ⟨hsame, hviews, hshows, _⟩ := getWasmTableEntry_spec (b := b) ho.views
      (List.getElem?_eq_getElem (show offset < s.wasmTable.length by omega))
    have hlook := ho.look (show offset < s.wasmTable.length by omega)
    simp only [updateTableMap]
    split
    · next f hf =>
        have hshown : Shows f s.wasmTable[offset] := hshows f hf
        have hmap : (mapSet f offset (getWasmTableEntry b offset s).2).functionsInTableMap =
            some (Function.update m f (some offset)) := by
          simp [mapSet, hsame.map, hm]
        have hlen' : offset + 1 + count ≤ (mapSet f offset (getWasmTableEntry b offset s).2).wasmTable.length := by
          simp only [mapSet, hsame.wasmTable]
          omega
        cases hg : s.wasmTable[offset] with
        | none =>
          -- the wrapper of an empty entry
          rw [hg] at hshown
          have hstale : Stale f := hnull f hshown
          exact ih (hlook.mapped (.inr hstale)) (hsame.free.trans hfree) hmap (offset + 1)
            (fun j hj => hnone j (by omega)) hlen'
        | some g =>
          rw [hg] at hshown
          have hcalls : g.invoked = f.invoked := hshown.symm
          have hgiven := hlook.give (hnone offset (Nat.le_refl _)) (by simp [hsame.free, hfree])
            (by rw [hsame.wasmTable, List.getElem?_eq_getElem (by omega), hg]) hcalls
          refine ih (hgiven.mapped (.inl (by simp))) (hsame.free.trans hfree) hmap (offset + 1) (fun j hj => ?_) hlen'
          have hne : j ≠ offset := by omega
          simpa [hne] using hnone j (by omega)
    · refine ih hlook (hsame.free.trans hfree) (hsame.map.trans hm) (offset + 1) (fun j hj => hnone j (by omega)) ?_
      rw [hsame.wasmTable]
      omega

/-! ## Adding -/

/-- Before the map is made there are no owners. -/
def Unused (s : State) (own : Nat → Option Func) : Prop :=
  s.functionsInTableMap = none → (∀ i, own i = none) ∧ s.freeTableIndexes = []

theorem getFunctionAddress_spec (ho : Owned b s own Stale) (hunused : Unused s own)
    (hnull : ∀ f, f.invoked = none → Stale f) (f : Func) :
    ∃ own' m, Owned b (getFunctionAddress b f s).2 own' Stale ∧ (∀ i f, own i = some f → own' i = some f) ∧
      (getFunctionAddress b f s).2.functionsInTableMap = some m ∧
      (getFunctionAddress b f s).1 = (m f).getD 0 := by
  cases hmap : s.functionsInTableMap with
  | some m =>
    refine ⟨own, m, ?_, fun _ _ h => h, ?_, ?_⟩ <;> simp only [getFunctionAddress, hmap]
    · exact ho
    · rfl
  | none =>
    obtain ⟨hnone, hfree⟩ := hunused hmap
    let s₀ := { s with functionsInTableMap := some fun _ => none }
    have hempty : Owned b s₀ own Stale := by
      refine ⟨⟨ho.views.cached, ho.views.mirror, ho.views.unused⟩, ho.calls, fun m hm f i hi => ?_, ho.free, ho.nodup⟩
      cases hm
      simp at hi
    obtain ⟨own', ho', _, hsome⟩ := hempty.filled hnull hfree rfl s.wasmTable.length 0
      (fun j _ => hnone j) (by simp [s₀])
    obtain ⟨m, hm⟩ := Option.ne_none_iff_exists'.mp hsome
    refine ⟨own', m, ?_, fun i f h => by simp [hnone i] at h, ?_, ?_⟩ <;>
      simp only [getFunctionAddress, hmap]
    · exact ho'
    · exact hm
    · rw [hm]
      rfl

theorem getEmptyTableSlot_spec (ho : Owned b s own Stale) {ret : Nat}
    (hslot : (getEmptyTableSlot b s).1 = some ret) :
    Owned b (getEmptyTableSlot b s).2 own Stale ∧ own ret = none ∧
      ret ∉ (getEmptyTableSlot b s).2.freeTableIndexes ∧ ret < (getEmptyTableSlot b s).2.wasmTable.length ∧
      (getEmptyTableSlot b s).2.functionsInTableMap = s.functionsInTableMap := by
  unfold getEmptyTableSlot at hslot ⊢
  split at hslot
  · next i rest hfree =>
      cases hslot
      simp only
      have hnodup := ho.nodup
      rw [hfree, List.nodup_cons] at hnodup
      obtain ⟨hnone, hlt⟩ := ho.free ret (by simp [hfree])
      refine ⟨⟨⟨ho.views.cached, ho.views.mirror, ho.views.unused⟩, ho.calls, ho.map, fun j hj => ?_, hnodup.2⟩,
        hnone, hnodup.1, hlt, trivial⟩
      exact ho.free j (by simp [hfree, hj])
  · next hfree =>
      split at hslot
      · next hroom =>
          cases hslot
          simp only [hfree, if_pos hroom]
          have hnone : own s.wasmTable.length = none := by
            cases hown : own s.wasmTable.length with
            | none => rfl
            | some f => exact absurd (ho.lt hown) (by simp)
          have hgrown : ∀ (i : Nat) (g : Option Func), s.wasmTable[i]? = some g →
              (s.wasmTable ++ [none])[i]? = some g := by
            intro i g hg
            rw [List.getElem?_append_left (List.getElem?_eq_some_iff.mp hg).1, hg]
          refine ⟨⟨⟨ho.views.cached, fun i h hh => ?_, ho.views.unused⟩, fun i f hi => ?_, ho.map, by simp, by simp⟩,
            hnone, by simp, by simp, trivial⟩
          · obtain ⟨g, hg, hshown⟩ := ho.views.mirror i h hh
            exact ⟨g, hgrown i g hg, hshown⟩
          · obtain ⟨g, hg, hcalls⟩ := ho.calls i f hi
            exact ⟨g, hgrown i _ hg, hcalls⟩
      · cases hslot

theorem getEmptyTableSlot_none (hslot : (getEmptyTableSlot b s).1 = none) :
    (getEmptyTableSlot b s).2 = s := by
  unfold getEmptyTableSlot at hslot ⊢
  split at hslot
  · cases hslot
  · next hfree =>
      split at hslot
      · cases hslot
      · next hfull => simp only [if_neg hfull]

/-- An entry set where there is no owner. -/
theorem Owned.set (ho : Owned b s own Stale) {g : Func} (hnone : own i = none) (hfree : i ∉ s.freeTableIndexes)
    (hi : i < s.wasmTable.length) (hcalls : g.invoked = f.invoked) :
    Owned b (setWasmTableEntry b i (some g) s) (Function.update own i (some f)) Stale := by
  obtain ⟨htable, hsame, hmap, hviews⟩ := setWasmTableEntry_spec (b := b) ho.views hi (some g)
  have hset : Owned b (setWasmTableEntry b i (some g) s) own Stale := by
    refine ⟨hviews, fun j f hj => ?_, ?_, ?_, ?_⟩
    · have hji : i ≠ j := by
        rintro rfl
        simp [hnone] at hj
      rw [htable, List.getElem?_set_ne hji]
      exact ho.calls j f hj
    · rw [hmap]
      exact ho.map
    · rw [hsame, htable, List.length_set]
      exact ho.free
    · rw [hsame]
      exact ho.nodup
  refine hset.give hnone (by rw [hsame]; exact hfree) ?_ hcalls
  rw [htable, List.getElem?_set_self hi]

/-- The new function set into its slot, under a wrapper where the table does not take it. -/
theorem Owned.put (ho : Owned b s own Stale) (hnone : own i = none) (hfree : i ∉ s.freeTableIndexes)
    (hi : i < s.wasmTable.length) (f : Func) :
    Owned b (if accepts b f then setWasmTableEntry b i (some f) s
        else setWasmTableEntry b i (some (.converted s.fresh f)) { s with fresh := s.fresh + 1 })
      (Function.update own i (some f)) Stale ∧
    (if accepts b f then setWasmTableEntry b i (some f) s
        else setWasmTableEntry b i (some (.converted s.fresh f)) { s with fresh := s.fresh + 1 }).functionsInTableMap =
      s.functionsInTableMap := by
  split
  · exact ⟨ho.set hnone hfree hi rfl, (setWasmTableEntry_spec ho.views hi _).2.2.1⟩
  · have ho' : Owned b { s with fresh := s.fresh + 1 } own Stale :=
      ⟨⟨ho.views.cached, ho.views.mirror, ho.views.unused⟩, ho.calls, ho.map, ho.free, ho.nodup⟩
    exact ⟨ho'.set hnone hfree hi rfl, (setWasmTableEntry_spec ho'.views hi _).2.2.1⟩

theorem addFunction_spec (ho : Owned b s own Stale) (hunused : Unused s own)
    (hnull : ∀ f, f.invoked = none → Stale f) (hclean : ¬ Stale f) :
    ∃ own', Owned b (addFunction b f s).2 own' Stale ∧ (∀ i f, own i = some f → own' i = some f) ∧
      (addFunction b f s).2.functionsInTableMap ≠ none ∧
      ∀ i, (addFunction b f s).1 = some i → own' i = some f := by
  obtain ⟨own₁, m, ho₁, hkeep, hm, hrtn⟩ := getFunctionAddress_spec ho hunused hnull f
  unfold addFunction
  simp only
  split
  · next hfound =>
      refine ⟨own₁, ho₁, hkeep, by simp [hm], fun i hi => ?_⟩
      cases hi
      cases hf : m f with
      | none => simp [hrtn, hf] at hfound
      | some i =>
        rw [hrtn, hf]
        exact (ho₁.map m hm f i hf).resolve_right hclean
  · cases hslot : (getEmptyTableSlot b (getFunctionAddress b f s).2).1 with
    | none =>
      have hpair : getEmptyTableSlot b (getFunctionAddress b f s).2 = (none, (getFunctionAddress b f s).2) :=
        Prod.ext hslot (getEmptyTableSlot_none hslot)
      rw [hpair]
      exact ⟨own₁, ho₁, hkeep, by simp [hm], by simp⟩
    | some ret =>
      obtain ⟨ho₂, hnone, hfree, hlt, hmap⟩ := getEmptyTableSlot_spec ho₁ hslot
      have hpair : getEmptyTableSlot b (getFunctionAddress b f s).2 =
          (some ret, (getEmptyTableSlot b (getFunctionAddress b f s).2).2) := Prod.ext hslot rfl
      obtain ⟨ho₃, hmap₃⟩ := ho₂.put hnone hfree hlt f
      rw [hpair]
      refine ⟨_, ho₃.mapped (f := f) (.inl (by simp)), fun i f' hi => ?_, ?_, fun i hi => ?_⟩
      · have hown := hkeep i f' hi
        have hne : i ≠ ret := by
          rintro rfl
          simp [hnone] at hown
        simpa [hne] using hown
      · intro hempty
        have hgone := Option.map_eq_none_iff.mp hempty
        rw [hmap₃, hmap, hm] at hgone
        cases hgone
      · cases hi
        simp

/-! ## Removing -/

@[simp] theorem mapDelete_table (entry : Option Func) : (mapDelete entry s).wasmTable = s.wasmTable := by
  cases entry <;> rfl

@[simp] theorem mapDelete_free (entry : Option Func) :
    (mapDelete entry s).freeTableIndexes = s.freeTableIndexes := by
  cases entry <;> rfl

theorem Views.mapDelete (hv : Views b s) (entry : Option Func) : Views b (mapDelete entry s) := by
  cases entry with
  | none => exact hv
  | some f => exact ⟨hv.cached, hv.mirror, hv.unused⟩

theorem mapDelete_eq_none {entry : Option Func} (h : (mapDelete entry s).functionsInTableMap = none) :
    s.functionsInTableMap = none := by
  cases entry with
  | none => exact h
  | some f => exact Option.map_eq_none_iff.mp h

theorem mapDelete_map {entry : Option Func} {m : Func → Option Nat} {j : Nat}
    (hm : m ∈ (mapDelete entry s).functionsInTableMap) (hj : m f = some j) :
    ∃ m' ∈ s.functionsInTableMap, m' f = some j ∧ entry ≠ some f := by
  cases entry with
  | none => exact ⟨m, hm, hj, by simp⟩
  | some g =>
    obtain ⟨m', hm', rfl⟩ := Option.map_eq_some_iff.mp hm
    have hne : f ≠ g := by
      rintro rfl
      simp at hj
    exact ⟨m', hm', by simpa [hne] using hj, by simpa using Ne.symm hne⟩

/-- The map loses the function that the entry shows; a wrapper is not the function that was added. -/
theorem removeFunction_spec (ho : Owned b s own Stale) (hi : own i = some f) :
    Owned b (removeFunction b i s) (Function.update own i none)
        (fun f' => Stale f' ∨ f' = f ∧ (getWasmTableEntry b i s).1 ≠ some f) ∧
      ((removeFunction b i s).functionsInTableMap = none → s.functionsInTableMap = none) := by
  have hlt := ho.lt hi
  obtain ⟨hsame, _, _, _⟩ := getWasmTableEntry_spec (b := b) ho.views (List.getElem?_eq_getElem hlt)
  have hlook := ho.look hlt
  generalize hentry : (getWasmTableEntry b i s).1 = entry
  have hviews := hlook.views.mapDelete entry
  obtain ⟨htable', hfree', hmap', hviews'⟩ := setWasmTableEntry_spec (b := b) hviews (i := i)
    (by rw [mapDelete_table, hsame.wasmTable]; exact hlt) none
  rw [mapDelete_table, hsame.wasmTable] at htable'
  rw [mapDelete_free, hsame.free] at hfree'
  have hremove : removeFunction b i s = { setWasmTableEntry b i none (mapDelete entry (getWasmTableEntry b i s).2) with
      freeTableIndexes := i :: (setWasmTableEntry b i none
        (mapDelete entry (getWasmTableEntry b i s).2)).freeTableIndexes } := by
    rw [← hentry]
    rfl
  rw [hremove]
  refine ⟨⟨⟨hviews'.cached, hviews'.mirror, hviews'.unused⟩, fun j f' hj => ?_, fun m hm f' j hj => ?_,
    fun j hj => ?_, ?_⟩, fun hnone => ?_⟩
  · have hji : j ≠ i := by
      rintro rfl
      simp at hj
    simp only [htable', List.getElem?_set_ne (Ne.symm hji)]
    exact ho.calls j f' (by simpa [hji] using hj)
  · rw [hmap'] at hm
    obtain ⟨m', hm', hold, hentry'⟩ := mapDelete_map hm hj
    rw [hsame.map] at hm'
    refine (ho.map m' hm' f' j hold).elim (fun hown => ?_) fun hs => .inr (.inl hs)
    by_cases hji : j = i
    · subst hji
      have hf : f' = f := by simpa [hown] using hi
      subst hf
      exact .inr (.inr ⟨rfl, hentry'⟩)
    · exact .inl (by simpa [hji] using hown)
  · simp only [htable', List.length_set]
    rcases List.mem_cons.mp hj with rfl | hj
    · exact ⟨by simp, hlt⟩
    · rw [hfree'] at hj
      obtain ⟨hnone, hlt'⟩ := ho.free j hj
      refine ⟨?_, hlt'⟩
      by_cases hji : j = i
      · simp [hji]
      · simpa [hji] using hnone
  · refine List.nodup_cons.mpr ⟨fun hmem => ?_, by rw [hfree']; exact ho.nodup⟩
    rw [hfree'] at hmem
    simpa [hi] using (ho.free i hmem).1
  · simp only [hmap'] at hnone
    have hgone := mapDelete_eq_none hnone
    rwa [hsame.map] at hgone

/-! ## Runs -/

structure Inv (b : Build) (w : World) (own : Nat → Option Func) : Prop where
  owned : Owned b w.state own (fun f => f ∈ w.left ∨ f.invoked = none)
  unused : Unused w.state own
  given : ∀ p ∈ w.given, own p.2 = some p.1
  allocated : ∀ p ∈ w.allocated, own p.2 = some p.1

variable {w w' : World}

theorem inv_start (table : List (Option Func)) : Inv b (start table) (fun _ => none) where
  owned := ⟨⟨fun _ _ _ h => by simp [start] at h, fun _ _ h => by simp [start] at h, fun _ _ => rfl⟩,
    by simp, by simp [start], by simp [start], by simp [start]⟩
  unused _ := ⟨fun _ => rfl, rfl⟩
  given := by simp [start]
  allocated := by simp [start]

theorem Inv.addFunction (hinv : Inv b w own) (hclean : Clean w f) :
    ∃ own', Owned b (addFunction b f w.state).2 own' (fun f => f ∈ w.left ∨ f.invoked = none) ∧
      (∀ i f, own i = some f → own' i = some f) ∧
      (FunctionTable.addFunction b f w.state).2.functionsInTableMap ≠ none ∧
      ∀ i, (FunctionTable.addFunction b f w.state).1 = some i → own' i = some f := by
  refine addFunction_spec hinv.owned hinv.unused (fun _ h => .inr h) fun hs => ?_
  exact hs.elim hclean.1 hclean.2

theorem Inv.step (hinv : Inv b w own) {a : Action} (hc : Adds w a) (hs : step b w a = some w') :
    ∃ own', Inv b w' own' := by
  cases a with
  | addFunction f =>
    obtain ⟨own', ho, hkeep, hmap, hgot⟩ := hinv.addFunction hc
    simp only [FunctionTable.step] at hs
    split at hs
    · next s' hadd =>
        cases hs
        rw [hadd] at ho hmap
        exact ⟨own', ho, fun hnone => absurd hnone hmap, fun p hp => hkeep _ _ (hinv.given p hp),
          fun p hp => hkeep _ _ (hinv.allocated p hp)⟩
    · next i s' hadd =>
        cases hs
        rw [hadd] at ho hmap hgot
        have hown : own' i = some f := hgot i rfl
        refine ⟨own', ho, fun hnone => absurd hnone hmap, fun p hp => ?_, fun p hp => ?_⟩
        · rcases List.mem_cons.mp hp with rfl | hp
          · exact hown
          · exact hkeep _ _ (hinv.given p hp)
        · simp only at hp
          split at hp
          · rcases List.mem_cons.mp hp with rfl | hp
            · exact hown
            · exact hkeep _ _ (hinv.allocated p hp)
          · exact hkeep _ _ (hinv.allocated p hp)
  | removeFunction index =>
    simp only [FunctionTable.step] at hs
    split at hs
    · cases hs
    · next p hfind =>
        cases hs
        have hindex : p.2 = index := by simpa using List.find?_some hfind
        have hown : own index = some p.1 := by
          rw [← hindex]
          exact hinv.allocated p (List.mem_of_find?_eq_some hfind)
        obtain ⟨ho, hmap⟩ := removeFunction_spec hinv.owned hown
        have hrest : ∀ q : Func × Nat, own q.2 = some q.1 → (q.2 != index) = true →
            Function.update own index none q.2 = some q.1 := by
          intro q hq hne
          simpa [show q.2 ≠ index by simpa using hne] using hq
        refine ⟨Function.update own index none, ho.mono fun f hf => ?_, fun hnone => ?_, fun q hq => ?_, fun q hq => ?_⟩
        · rcases hf with (hf | hf) | ⟨rfl, hshown⟩
          · left
            simp only
            split
            · exact hf
            · exact List.mem_cons_of_mem _ hf
          · exact .inr hf
          · left
            simp [hshown]
        · have hnone' := (hinv.unused (hmap hnone)).1 index
          rw [hown] at hnone'
          cases hnone'
        · obtain ⟨hq, hne⟩ := List.mem_filter.mp hq
          exact hrest q (hinv.given q hq) hne
        · obtain ⟨hq, hne⟩ := List.mem_filter.mp hq
          exact hrest q (hinv.allocated q hq) hne
  | getWasmTableEntry index =>
    simp only [FunctionTable.step, Option.ite_none_right_eq_some, Option.some.injEq] at hs
    obtain ⟨hlt, rfl⟩ := hs
    obtain ⟨hsame, _⟩ := getWasmTableEntry_spec (b := b) hinv.owned.views (List.getElem?_eq_getElem hlt)
    refine ⟨own, hinv.owned.look hlt, fun hnone => ?_, hinv.given, hinv.allocated⟩
    rw [hsame.map] at hnone
    rw [hsame.free]
    exact hinv.unused hnone

/-- In a run that adds only functions the map was rid of, every index that `addFunction` returned calls its
function, and no two functions share one; and adding one more such function gives it an entry that calls it. -/
theorem consistent_of_reaches {table : List (Option Func)}
    (h : Reaches (step b) Adds (start table) w) :
    Consistent b w ∧ ∀ f, Clean w f → ∀ i, (addFunction b f w.state).1 = some i →
      Invokes b (addFunction b f w.state).2 i f := by
  have hreached : ∃ own, Inv b w own := by
    refine h.invariant (I := fun w => ∃ own, Inv b w own) ⟨_, inv_start table⟩ ?_
    rintro w a w' ⟨own, hi⟩ hc hs
    exact hi.step hc hs
  obtain ⟨own, hinv⟩ := hreached
  refine ⟨⟨fun p hp => hinv.owned.invokes (hinv.given p hp), fun p hp q hq hpq => ?_⟩, fun f hf i hi => ?_⟩
  · have hown := hinv.given p hp
    rw [hpq, hinv.given q hq] at hown
    exact (Option.some.inj hown).symm
  · obtain ⟨own', ho, _, _, hgot⟩ := hinv.addFunction hf
    exact ho.invokes (hgot i hi)

/-- A build with a mirror and nothing else. -/
def Build.plain : Build where
  WASM2JS := false
  mirrored := true
  ABORT_ON_WASM_EXCEPTIONS := false
  isAsyncExport _ := false
  maximum := 100

instance (w : World) (f : Func) : Decidable (Clean w f) := inferInstanceAs (Decidable (_ ∧ _))

instance (w : World) : (a : Action) → Decidable (Adds w a)
  | .addFunction f => inferInstanceAs (Decidable (Clean w f))
  | .removeFunction _ => isTrue trivial
  | .getWasmTableEntry _ => isTrue trivial

/-- A JavaScript function comes and goes, and another one takes its index. -/
theorem consistent_reuse : ∃ w, (w.given = [(.exported 3, 2), (.plain 1, 3), (.exported 7, 1)] ∧
    w.allocated.length = 2) ∧ Consistent Build.plain w ∧
    ∀ f, Clean w f → ∀ i, (addFunction Build.plain f w.state).1 = some i →
      Invokes Build.plain (addFunction Build.plain f w.state).2 i f := by
  let as : List Action := [.addFunction (.exported 7), .addFunction (.plain 0), .getWasmTableEntry 2,
    .addFunction (.plain 1), .removeFunction 2, .addFunction (.exported 3)]
  have hrun : (exec (step Build.plain) (start [none, some (.exported 7)]) as).map
      (fun w => (w.given, w.allocated.length)) =
      some ([(.exported 3, 2), (.plain 1, 3), (.exported 7, 1)], 2) := by decide
  obtain ⟨w, hw, hobs⟩ := Option.map_eq_some_iff.mp hrun
  have hmeets : Meets (step Build.plain) Adds (start [none, some (.exported 7)]) as :=
    meets_of_check (c := fun w a => decide (Adds w a)) (fun _ _ => of_decide_eq_true) as (by decide)
  obtain ⟨hgiven, hall⟩ := Prod.mk.inj hobs
  exact ⟨w, ⟨hgiven, hall⟩, consistent_of_reaches (reaches_of_exec as hw hmeets)⟩

/-- A JavaScript function that is added, removed and added again gets its old index, where nothing is. -/
theorem inconsistent_reached : ∃ w, Reaches (step Build.plain) Any (start [none]) w ∧
    (.plain 0, 1) ∈ w.given ∧ ¬ Consistent Build.plain w := by
  have hrun : (exec (step Build.plain) (start [none])
      [.addFunction (.plain 0), .removeFunction 1, .addFunction (.plain 0)]).map
      (fun w => (w.given, w.state.wasmTable)) = some ([(.plain 0, 1)], [none, none]) := by decide
  obtain ⟨w, hreach, hobs⟩ := reaches_of_map _ hrun
  obtain ⟨hgiven, htable⟩ := Prod.mk.inj hobs
  refine ⟨w, hreach, by simp [hgiven], fun hc => ?_⟩
  obtain ⟨⟨g, hg, _⟩, _⟩ := hc.invokes (.plain 0, 1) (by simp [hgiven])
  simp [htable] at hg

end FunctionTable
