-- SUMMARY: Reading a source map back: every entry with its source, line, column and innermost function, and lookups between entries.
import Mathlib.Data.List.Dedup
import Mathlib.Data.List.TakeWhile
import Emscripten.Tools.SourceMap

/-!
# Decoding source maps

The reader is in step with the writer as long as its five sums are the values that the writer
remembers. The ranges that the writer holds for active are those that cover the address, in the order
they begin; of laminar ranges the last of these is the innermost.
-/

namespace SourceMap

/-! ## Numbers -/

theorem vlq_map_char : ∀ i : Fin 64, vlq_map (VLQ_CHARS.getD i 'A') = some i.val := by
  decide +kernel

theorem vlq_map_getD {i : Nat} (h : i < 64) : vlq_map (VLQ_CHARS.getD i 'A') = some i :=
  vlq_map_char ⟨i, h⟩

theorem decodeFrom_encodeDigits (x value shift : Nat) (rest : List Char) :
    decodeFrom value shift (encodeDigits x ++ rest) =
      (signed (value + x * 2 ^ shift) :: ·) <$> decodeFrom 0 0 rest := by
  induction x using Nat.strongRecOn generalizing value shift with
  | ind x ih =>
    unfold encodeDigits
    split
    next h =>
      have hmap : vlq_map (VLQ_CHARS.getD (32 + x % 32) 'A') = some (32 + x % 32) :=
        vlq_map_getD (by omega)
      have hmore : (32 + x % 32) / 32 % 2 = 1 := by omega
      have hdigit : (32 + x % 32) % 32 = x % 32 := by omega
      have hvalue : value + x % 32 * 2 ^ shift + x / 32 * 2 ^ (shift + 5) =
          value + x * 2 ^ shift := by
        calc value + x % 32 * 2 ^ shift + x / 32 * 2 ^ (shift + 5)
            = value + (x % 32 + x / 32 * 32) * 2 ^ shift := by
              rw [Nat.pow_add, Nat.add_mul, Nat.mul_assoc, Nat.mul_comm 32, Nat.add_assoc]
          _ = value + x * 2 ^ shift := by rw [Nat.mod_add_div' x 32]
      rw [List.cons_append, decodeFrom, hmap, Option.bind_some]
      simp only [hmore, if_true, hdigit]
      rw [ih (x / 32) (by omega), hvalue]
    next h =>
      have hmap : vlq_map (VLQ_CHARS.getD x 'A') = some x := vlq_map_getD (by omega)
      have hlast : ¬ x / 32 % 2 = 1 := by omega
      have hdigit : x % 32 = x := by omega
      rw [List.cons_append, decodeFrom, hmap, Option.bind_some]
      simp only [hlast, if_false, hdigit, List.nil_append]

theorem decodeFrom_encode_vlq (n : Int) (rest : List Char) :
    decodeFrom 0 0 (encode_vlq n ++ rest) = (n :: ·) <$> decodeFrom 0 0 rest := by
  have hsigned : signed (0 + (if n ≥ 0 then n.toNat * 2 else (-n).toNat * 2 + 1) * 2 ^ 0) = n := by
    split
    · have hmod : (0 + n.toNat * 2 * 2 ^ 0) % 2 ≠ 1 := by omega
      rw [signed, if_neg hmod]
      omega
    · have hmod : (0 + ((-n).toNat * 2 + 1) * 2 ^ 0) % 2 = 1 := by omega
      rw [signed, if_pos hmod]
      omega
  rw [encode_vlq, decodeFrom_encodeDigits, hsigned]

/-- Numbers one after another. -/
theorem decodeVLQ_encode (ns : List Int) : decodeVLQ (ns.flatMap encode_vlq) = some ns := by
  induction ns with
  | nil => rfl
  | cons n ns ih =>
    rw [List.flatMap_cons, decodeVLQ, decodeFrom_encode_vlq]
    exact congrArg ((n :: ·) <$> ·) ih

/-! ## Segments -/

theorem comma_not_mem_chars : ',' ∉ VLQ_CHARS := by decide

theorem comma_not_mem_digits (x : Nat) : ',' ∉ encodeDigits x := by
  have hchar (i : Nat) : ',' ≠ VLQ_CHARS.getD i 'A' := by
    intro h
    rw [List.getD_eq_getElem?_getD] at h
    cases hi : VLQ_CHARS[i]? with
    | none => simp [hi] at h
    | some c =>
      simp only [hi, Option.getD_some] at h
      exact comma_not_mem_chars (h ▸ List.mem_of_getElem? hi)
  induction x using Nat.strongRecOn with
  | ind x ih =>
    unfold encodeDigits
    split
    · rw [List.mem_cons, not_or]
      exact ⟨hchar _, ih _ (by omega)⟩
    · rw [List.mem_singleton]
      exact hchar _

theorem comma_not_mem_vlq (n : Int) : ',' ∉ encode_vlq n := comma_not_mem_digits _

theorem splitMappings_append {m : List Char} (hm : ',' ∉ m) (cs : List Char) :
    splitMappings (m ++ ',' :: cs) = m :: splitMappings cs := by
  induction m with
  | nil => simp [splitMappings]
  | cons c m ih =>
    simp only [List.mem_cons, not_or] at hm
    rw [List.cons_append, splitMappings, if_neg (Ne.symm hm.1), ih hm.2]

theorem splitMappings_self {m : List Char} (hm : ',' ∉ m) : splitMappings m = [m] := by
  induction m with
  | nil => rfl
  | cons c m ih =>
    simp only [List.mem_cons, not_or] at hm
    rw [splitMappings, if_neg (Ne.symm hm.1), ih hm.2]

theorem splitMappings_join {ms : List (List Char)} (hne : ms ≠ []) (h : ∀ m ∈ ms, ',' ∉ m) :
    splitMappings (joinMappings ms) = ms := by
  induction ms with
  | nil => exact absurd rfl hne
  | cons m ms ih =>
    cases ms with
    | nil => exact splitMappings_self (h m (by simp))
    | cons m' ms =>
      rw [joinMappings, splitMappings_append (h m (by simp)),
        ih (by simp) fun x hx => h x (List.mem_cons_of_mem _ hx)]
      simp

/-! ## Ranges -/

variable {ranges : List FuncRange} {a : Int}

section Ranges

variable {ranges : List FuncRange} {r r' : FuncRange}

instance : Std.Total FuncRange.le := ⟨fun r r' => by
  simp only [FuncRange.le]
  omega⟩

instance : IsTrans FuncRange FuncRange.le := ⟨fun r r' r'' h h' => by
  simp only [FuncRange.le] at *
  omega⟩

theorem pairwise_sortRanges (ranges : List FuncRange) :
    (sortRanges ranges).Pairwise FuncRange.le := List.pairwise_insertionSort _ _

theorem mem_sortRanges : r ∈ sortRanges ranges ↔ r ∈ ranges := List.mem_insertionSort _

/-- The ranges that cover an address. -/
def covering (ranges : List FuncRange) (a : Int) : List FuncRange :=
  ranges.filter fun r => r.low_pc ≤ a ∧ a < r.high_pc

theorem mem_covering : r ∈ covering ranges a ↔ r ∈ ranges ∧ r.Covers a := by
  simp [covering, FuncRange.Covers]

/-- Of laminar ranges in order, the last that covers an address is the innermost. -/
theorem innermost_getLast (hsorted : ranges.Pairwise FuncRange.le) (hlam : Laminar ranges) :
    InnermostFunction ranges a
      ((covering ranges a).getLast?.map FuncRange.name) := by
  cases hlast : (covering ranges a).getLast? with
  | none =>
    intro r hr hcov
    have : r ∈ covering ranges a := mem_covering.mpr ⟨hr, hcov⟩
    rw [List.getLast?_eq_none_iff.mp hlast] at this
    simp at this
  | some r =>
    obtain ⟨rs, hrs⟩ := List.getLast?_eq_some_iff.mp hlast
    obtain ⟨hr, hcov⟩ := mem_covering.mp (List.mem_of_getLast? hlast)
    refine ⟨r, hr, rfl, hcov, fun r' hr' hcov' => ?_⟩
    -- the other ranges come before it in the order
    have hle : r'.le r ∨ r' = r := by
      have hpair : (covering ranges a).Pairwise FuncRange.le := hsorted.filter _
      have hmem : r' ∈ covering ranges a := mem_covering.mpr ⟨hr', hcov'⟩
      rw [hrs] at hpair hmem
      obtain hmem | hmem := List.mem_append.mp hmem
      · exact .inl ((List.pairwise_append.mp hpair).2.2 r' hmem r (by simp))
      · exact .inr (List.mem_singleton.mp hmem)
    obtain hle | rfl := hle
    · have hcases := hlam r hr r' hr'
      simp only [FuncRange.Inside, FuncRange.Covers, FuncRange.le] at *
      omega
    · simp [FuncRange.Inside]

theorem laminar_shift (offset : Int) (h : Laminar ranges) :
    Laminar (ranges.map (FuncRange.shift offset)) := by
  intro r hr r' hr'
  obtain ⟨q, hq, rfl⟩ := List.mem_map.mp hr
  obtain ⟨q', hq', rfl⟩ := List.mem_map.mp hr'
  have := h q hq q' hq'
  simp only [FuncRange.Inside, FuncRange.shift] at *
  omega

theorem pairwise_shift (offset : Int) (h : ranges.Pairwise FuncRange.le) :
    (ranges.map (FuncRange.shift offset)).Pairwise FuncRange.le := by
  refine List.pairwise_map.mpr (h.imp fun {r r'} hle => ?_)
  simp only [FuncRange.le, FuncRange.shift] at *
  omega

theorem innermost_shift (offset a : Int) (o : Option String)
    (h : InnermostFunction (ranges.map (FuncRange.shift offset)) (a + offset) o) :
    InnermostFunction ranges a o := by
  have hcov (r : FuncRange) : (r.shift offset).Covers (a + offset) ↔ r.Covers a := by
    simp only [FuncRange.Covers, FuncRange.shift]
    omega
  cases o with
  | none => exact fun r hr hc => h _ (List.mem_map_of_mem hr) ((hcov r).mpr hc)
  | some name =>
    obtain ⟨r, hr, hname, hc, hin⟩ := h
    obtain ⟨q, hq, rfl⟩ := List.mem_map.mp hr
    refine ⟨q, hq, hname, (hcov q).mp hc, fun q' hq' hc' => ?_⟩
    have := hin _ (List.mem_map_of_mem hq') ((hcov q').mpr hc')
    simp only [FuncRange.Inside, FuncRange.shift] at *
    omega

/-- The order does not matter for what is innermost. -/
theorem innermost_congr {ranges' : List FuncRange} (h : ∀ r, r ∈ ranges ↔ r ∈ ranges') {o : Option String} :
    InnermostFunction ranges a o ↔ InnermostFunction ranges' a o := by
  cases o <;> simp [InnermostFunction, h]

end Ranges

/-! ## The writer's active functions -/

section Tracking

variable {S : Type} {ranges : List FuncRange} {b : Builder S} {a a' : Int}

/-- What the writer knows of the ranges at an address. -/
def Tracks (ranges : List FuncRange) (b : Builder S) (a : Int) : Prop :=
  ∃ begun, ranges = begun ++ b.pending ∧ (∀ r ∈ begun, r.low_pc ≤ a) ∧
    b.active_funcs = begun.filter fun r => r.high_pc > a

theorem pairwise_le_low (hsorted : ranges.Pairwise FuncRange.le) :
    ranges.Pairwise fun r r' => r.low_pc ≤ r'.low_pc := hsorted.imp fun {r r'} hle => by
  simp only [FuncRange.le] at hle
  omega

/-- In order of the start, those not yet begun come after the first of them. -/
theorem low_of_mem_dropWhile {rs : List FuncRange}
    (hsorted : rs.Pairwise fun r r' => r.low_pc ≤ r'.low_pc)
    (hr : r ∈ rs.dropWhile fun r => r.low_pc ≤ a) : a < r.low_pc := by
  induction rs with
  | nil => simp at hr
  | cons q qs ih =>
    obtain ⟨hq, hqs⟩ := List.pairwise_cons.mp hsorted
    by_cases hlow : q.low_pc ≤ a
    · simp only [List.dropWhile_cons, hlow, decide_true, if_true] at hr
      exact ih hqs hr
    · simp only [List.dropWhile_cons, hlow, decide_false, Bool.false_eq_true, if_false] at hr
      obtain rfl | hr := List.mem_cons.mp hr
      · omega
      · have := hq r hr
        omega

theorem advance_tracks (hsorted : ranges.Pairwise FuncRange.le) (h : Tracks ranges b a)
    (ha : a ≤ a') : Tracks ranges (advance a' b) a' ∧
      (advance a' b).active_funcs = covering ranges a' := by
  obtain ⟨begun, hranges, hbegun, hactive⟩ := h
  have hnow : (advance a' b).active_funcs =
      (begun ++ b.pending.takeWhile fun r => r.low_pc ≤ a').filter fun r => r.high_pc > a' := by
    simp only [advance, hactive, List.filter_append, List.filter_filter]
    congr 1
    refine List.filter_congr fun r _ => ?_
    -- what has ended by the earlier address has ended
    have hended : r.high_pc > a' → r.high_pc > a := by omega
    simpa using hended
  have hlow : ∀ r ∈ begun ++ b.pending.takeWhile (fun r => r.low_pc ≤ a'), r.low_pc ≤ a' := by
    intro r hr
    obtain hr | hr := List.mem_append.mp hr
    · have := hbegun r hr
      omega
    · simpa using List.mem_takeWhile_imp hr
  have hsplit : ranges = (begun ++ b.pending.takeWhile fun r => r.low_pc ≤ a') ++
      b.pending.dropWhile fun r => r.low_pc ≤ a' := by
    rw [List.append_assoc, List.takeWhile_append_dropWhile, hranges]
  refine ⟨⟨_, hsplit, hlow, hnow⟩, ?_⟩
  have hpending : b.pending.Pairwise fun r r' => r.low_pc ≤ r'.low_pc := by
    have := pairwise_le_low hsorted
    rw [hranges] at this
    exact (List.pairwise_append.mp this).2.1
  have hnone : (b.pending.dropWhile fun r => r.low_pc ≤ a').filter
      (fun r => r.low_pc ≤ a' ∧ a' < r.high_pc) = [] := by
    refine List.filter_eq_nil_iff.mpr fun r hr => ?_
    have := low_of_mem_dropWhile hpending hr
    simp
    omega
  calc (advance a' b).active_funcs
      = (begun ++ b.pending.takeWhile fun r => r.low_pc ≤ a').filter fun r => r.high_pc > a' := hnow
    _ = (begun ++ b.pending.takeWhile fun r => r.low_pc ≤ a').filter
          fun r => r.low_pc ≤ a' ∧ a' < r.high_pc :=
        List.filter_congr fun r hr => by simp [hlow r hr]
    _ = covering ranges a' := by
        rw [covering, hsplit, List.filter_append (begun ++ _), hnone, List.append_nil]

end Tracking

/-! ## In step -/

section InStep

variable {F S : Type} {b : Builder S} {p : Parser}

/-- The sums of the reader are what the writer remembers. -/
structure InStep (b : Builder S) (p : Parser) : Prop where
  offset : p.offset = b.last_address
  src : p.src = b.last_source_id
  line : p.line = b.last_line
  col : p.col = b.last_column
  func : p.func = b.last_func_id

variable [DecidableEq S] (resolve : F → S) (names : List String) (code_section_offset : Int)

/-- The location that an entry is written as. -/
def located (ranges : List FuncRange) (sources : List S) (e : LineEntry F) : Location where
  source := some (sources.idxOf (resolve e.file) : Nat)
  line := e.line
  column := max e.column 1
  func := (covering ranges (e.address + code_section_offset)).getLast?.map
    fun r => (names.idxOf r.name : Nat)

variable (e : LineEntry F)

theorem addEntry_sources (b : Builder S) :
    b.sources <+: (addEntry resolve names code_section_offset e b).1.sources ∧
      resolve e.file ∈ (addEntry resolve names code_section_offset e b).1.sources := by
  have hsources : (addEntry resolve names code_section_offset e b).1.sources =
      if resolve e.file ∈ b.sources then b.sources else b.sources ++ [resolve e.file] := by
    unfold addEntry
    simp only
    split <;> rfl
  rw [hsources]
  split
  next h => exact ⟨List.prefix_rfl, h⟩
  next h => exact ⟨List.prefix_append _ _, by simp⟩

theorem addEntry_active (b : Builder S) :
    (addEntry resolve names code_section_offset e b).1.active_funcs =
        (advance (e.address + code_section_offset) b).active_funcs ∧
      (addEntry resolve names code_section_offset e b).1.pending =
        (advance (e.address + code_section_offset) b).pending := by
  unfold addEntry
  simp only
  split <;> exact ⟨rfl, rfl⟩

theorem addEntry_comma (b : Builder S) : ',' ∉ (addEntry resolve names code_section_offset e b).2 := by
  unfold addEntry
  simp only
  split <;> simp [comma_not_mem_vlq]

/-- One segment: read back, it is the entry, and the reader stays in step. -/
theorem addEntry_read (hstep : InStep b p)
    (hactive : (advance (e.address + code_section_offset) b).active_funcs =
      covering ranges (e.address + code_section_offset)) :
    ∃ data p', decodeVLQ (addEntry resolve names code_section_offset e b).2 = some data ∧
      addSegment data p = some p' ∧
      InStep (addEntry resolve names code_section_offset e b).1 p' ∧
      p'.mappings = Function.update p.mappings (e.address + code_section_offset)
        (some (located resolve names code_section_offset ranges
          (addEntry resolve names code_section_offset e b).1.sources e)) ∧
      p'.offsets = p.offsets ++ [e.address + code_section_offset] := by
  have hcol : ((if e.column = 0 then 1 else e.column : Nat) : Int) = max (e.column : Int) 1 := by
    split <;> omega
  have hsum (n m : Int) : n + (m - n) = m := by omega
  have hfour (n m k l : Int) : encode_vlq n ++ encode_vlq m ++ encode_vlq k ++ encode_vlq l =
      [n, m, k, l].flatMap encode_vlq := by simp
  have hfive (n m k l i : Int) : encode_vlq n ++ encode_vlq m ++ encode_vlq k ++ encode_vlq l ++
      encode_vlq i = [n, m, k, l, i].flatMap encode_vlq := by simp
  unfold addEntry
  simp only [functionId, hactive]
  -- whether a function covers the address decides on the fifth number
  cases hlast : (covering ranges (e.address + code_section_offset)).getLast? with
  | none =>
    simp only [Option.map_none, hfour, decodeVLQ_encode]
    refine ⟨_, _, rfl, rfl, ⟨?_, ?_, ?_, ?_, ?_⟩, ?_, ?_⟩ <;>
      simp [hstep.offset, hstep.src, hstep.line, hstep.col, hstep.func, hsum, located, hlast, hcol]
  | some r =>
    simp only [Option.map_some, hfive, decodeVLQ_encode]
    refine ⟨_, _, rfl, rfl, ⟨?_, ?_, ?_, ?_, ?_⟩, ?_, ?_⟩ <;>
      simp [hstep.offset, hstep.src, hstep.line, hstep.col, hstep.func, hsum, located, hlast, hcol]

theorem located_prefix {sources sources' : List S} {e : LineEntry F} (hpre : sources <+: sources')
    (hmem : resolve e.file ∈ sources) :
    located resolve names code_section_offset ranges sources' e =
      located resolve names code_section_offset ranges sources e := by
  obtain ⟨more, rfl⟩ := hpre
  simp [located, List.idxOf_append_of_mem hmem]

omit [DecidableEq S] in
theorem entryAt_cons_zero {e : LineEntry F} (h : e.line = 0) (es : List (LineEntry F)) (a : Int) :
    entryAt (e :: es) a = entryAt es a := by simp [entryAt, kept, h]

theorem entryAt_cons {e : LineEntry F} (h : e.line ≠ 0) (es : List (LineEntry F)) (a : Int) :
    entryAt (e :: es) a = if e.address = a then some ((entryAt es a).getD e) else entryAt es a := by
  unfold entryAt
  split
  next ha => simp [kept, h, ha, List.getLast?_cons]
  next ha => simp [kept, h, ha]

/-- What the reader has after the segments of these entries. -/
structure Reads (ranges : List FuncRange) (entries : List (LineEntry F)) (sources : List S)
    (p p' : Parser) : Prop where
  offsets : p'.offsets = p.offsets ++ (kept entries).map (·.address + code_section_offset)
  collected : ∀ e ∈ kept entries, resolve e.file ∈ sources
  mappings : ∀ a, p'.mappings (a + code_section_offset) =
    (entryAt entries a).elim (p.mappings (a + code_section_offset))
      fun e => some (located resolve names code_section_offset ranges sources e)

/-- All segments, by induction on the entries; the ranges are tracked up to the address before. -/
theorem addEntries_read {entries : List (LineEntry F)} (hranges : ranges.Pairwise FuncRange.le)
    (htracks : Tracks ranges b a) (hfirst : ∀ e ∈ entries, a ≤ e.address + code_section_offset)
    (hsorted : entries.Pairwise (·.address ≤ ·.address)) (hstep : InStep b p) :
    ∃ p', addSegments p (addEntries resolve names code_section_offset b entries).1 = some p' ∧
      b.sources <+: (addEntries resolve names code_section_offset b entries).2 ∧
      Reads resolve names code_section_offset ranges entries
        (addEntries resolve names code_section_offset b entries).2 p p' := by
  induction entries generalizing b p a with
  | nil => exact ⟨p, rfl, List.prefix_rfl, ⟨by simp [kept], by simp [kept], fun a => rfl⟩⟩
  | cons e es ih =>
    obtain ⟨hle, hes⟩ := List.pairwise_cons.mp hsorted
    unfold addEntries
    by_cases hline : e.line = 0
    · simp only [hline, if_true]
      obtain ⟨p', hadd, hpre, hreads⟩ := ih htracks
        (fun e he => hfirst e (List.mem_cons_of_mem _ he)) hes hstep
      refine ⟨p', hadd, hpre, ⟨?_, ?_, fun a => ?_⟩⟩
      · simpa [kept, hline] using hreads.offsets
      · simpa [kept, hline] using hreads.collected
      · rw [entryAt_cons_zero hline]
        exact hreads.mappings a
    · simp only [hline, if_false]
      obtain ⟨htracks', hcovering⟩ := advance_tracks hranges htracks (hfirst e (by simp))
      obtain ⟨data, q, hdata, hseg, hstep', hmap, hoffs⟩ :=
        addEntry_read resolve names code_section_offset e hstep hcovering
      obtain ⟨hsources, hmem⟩ := addEntry_sources resolve names code_section_offset e b
      obtain ⟨hact, hpend⟩ := addEntry_active resolve names code_section_offset e b
      have htracks'' : Tracks ranges (addEntry resolve names code_section_offset e b).1
          (e.address + code_section_offset) := by
        rw [Tracks, hact, hpend]
        exact htracks'
      obtain ⟨p', hadd, hpre, hreads⟩ := ih htracks''
        (fun e' he' => by have := hle e' he'; omega) hes hstep'
      refine ⟨p', ?_, hsources.trans hpre, ⟨?_, ?_, fun a => ?_⟩⟩
      · simp only [addSegments, hdata, hseg, Option.bind_some]
        exact hadd
      · simp [hreads.offsets, hoffs, kept, hline]
      · intro e' he'
        simp only [kept, hline, ne_eq, not_false_eq_true, decide_true, List.filter_cons_of_pos,
          List.mem_cons] at he'
        obtain rfl | he' := he'
        · exact hpre.subset hmem
        · exact hreads.collected e' (by simpa [kept] using he')
      · rw [hreads.mappings a, entryAt_cons hline]
        by_cases ha : e.address = a
        · cases hat : entryAt es a with
          | some e' => simp [ha]
          | none =>
            simp [hmap, ha, located_prefix resolve names code_section_offset hpre hmem]
        · have hne : a + code_section_offset ≠ e.address + code_section_offset := by omega
          simp [hmap, ha, Function.update_of_ne hne]

end InStep

/-! ## Lookups -/

section Lookups

variable {l : List Int} {x y : Int}

theorem getD_le_getD (hsorted : l.Pairwise (· ≤ ·)) {i j : Nat} (hij : i ≤ j) (hj : j < l.length) :
    l.getD i 0 ≤ l.getD j 0 := by
  have hi : i < l.length := by omega
  simp only [List.getD_eq_getElem?_getD, List.getElem?_eq_getElem hi, List.getElem?_eq_getElem hj,
    Option.getD_some]
  obtain hlt | rfl := Nat.lt_or_eq_of_le hij
  · exact List.pairwise_iff_getElem.mp hsorted i j hi hj hlt
  · exact Int.le_refl _

/-- The loop keeps that everything below `lo` is not above the offset, and everything from `hi` on is. -/
theorem bisect_spec (hsorted : l.Pairwise (· ≤ ·)) {lo hi : Nat} (hle : lo ≤ hi)
    (hhi : hi ≤ l.length) (hbelow : ∀ i < lo, l.getD i 0 ≤ x)
    (habove : ∀ i, hi ≤ i → i < l.length → x < l.getD i 0) :
    bisect l x lo hi ≤ l.length ∧ (∀ i < bisect l x lo hi, l.getD i 0 ≤ x) ∧
      ∀ i, bisect l x lo hi ≤ i → i < l.length → x < l.getD i 0 := by
  fun_induction bisect l x lo hi with
  | case1 lo hi hlt mid hgt ih =>
    refine ih (by omega) (by omega) hbelow fun i hi' hlen => ?_
    have := getD_le_getD hsorted hi' hlen
    omega
  | case2 lo hi hlt mid hgt ih =>
    refine ih (by omega) hhi (fun i hi' => ?_) habove
    have := getD_le_getD hsorted (show i ≤ mid by omega) (by omega)
    omega
  | case3 lo hi hlt =>
    obtain rfl : lo = hi := by omega
    exact ⟨hhi, hbelow, habove⟩

theorem find_offset_none (hsorted : l.Pairwise (· ≤ ·)) (h : ∀ z ∈ l, x < z) :
    find_offset l x none = none := by
  obtain ⟨hlen, hbelow, -⟩ := bisect_spec hsorted (Nat.zero_le _) (Nat.le_refl l.length)
    (fun i hi => absurd hi (by omega)) (x := x) (fun i hi hlt => absurd hlt (by omega))
  have hzero : bisect l x 0 l.length = 0 := by
    by_contra hne
    have hi : 0 < l.length := by omega
    have hle := hbelow 0 (by omega)
    rw [List.getD_eq_getElem?_getD, List.getElem?_eq_getElem hi, Option.getD_some] at hle
    have := h _ (List.getElem_mem hi)
    omega
  simp [find_offset, hzero]

/-- The greatest offset that is not above. -/
theorem find_offset_some (hsorted : l.Pairwise (· ≤ ·)) (hy : y ∈ l) (hyx : y ≤ x)
    (hmax : ∀ z ∈ l, z ≤ x → z ≤ y) : find_offset l x none = some y := by
  obtain ⟨hlen, hbelow, habove⟩ := bisect_spec hsorted (Nat.zero_le _) (Nat.le_refl l.length)
    (fun i hi => absurd hi (by omega)) (x := x) (fun i hi hlt => absurd hlt (by omega))
  obtain ⟨i, hi, rfl⟩ := List.getElem_of_mem hy
  have hget (j : Nat) (hj : j < l.length) : l.getD j 0 = l[j] := by
    simp [List.getD_eq_getElem?_getD, List.getElem?_eq_getElem hj]
  have hib : i < bisect l x 0 l.length := by
    by_contra hnot
    have := habove i (by omega) hi
    rw [hget i hi] at this
    omega
  have hlast : bisect l x 0 l.length - 1 < l.length := by omega
  have hfound : l.getD (bisect l x 0 l.length - 1) 0 = l[i] := by
    have hup := hmax _ (List.getElem_mem hlast)
    rw [← hget _ hlast] at hup
    have hle := hup (hbelow _ (by omega))
    have hge := getD_le_getD hsorted (show i ≤ bisect l x 0 l.length - 1 by omega) hlast
    rw [hget i hi] at hge
    omega
  have hne : bisect l x 0 l.length ≠ 0 := by omega
  simp only [find_offset, hne, if_false, hfound]

end Lookups

theorem findCodeSection_le {fuel pos n : Nat} {wasm : List UInt8}
    (h : findCodeSection fuel pos wasm = some n) : pos ≤ n := by
  fun_induction findCodeSection fuel pos wasm with
  | case1 => simp at h
  | case2 => simp at h
  | case3 fuel pos section_id wasm ih =>
    simp only [Option.bind_eq_some_iff] at h
    obtain ⟨x, -, y, -, h⟩ := h
    split at h
    · simp only [Option.some.injEq] at h
      omega
    · have := ih x y h
      omega

/-- The code section is behind the header. -/
theorem eight_le_code_section {wasm : List UInt8} {n : Nat}
    (h : get_code_section_offset wasm = some n) : 8 ≤ n := findCodeSection_le h

/-! ## Faithfulness -/

section Faithfulness

variable {F S : Type} [DecidableEq S] {resolve : F → S} {entries : List (LineEntry F)}
  {ranges : List FuncRange} {off : Int}

omit [DecidableEq S] in
theorem index_nat {γ : Type} (l : List γ) (i : Nat) : index l (i : Int) = l[i]? := by
  simp [index]

theorem mem_functionNames {r : FuncRange} (h : r ∈ ranges) : r.name ∈ functionNames ranges :=
  (List.mem_insertionSort _).mpr (List.mem_dedup.mpr (List.mem_map_of_mem h))

/-- The ranges as the writer works on them. -/
def placed (ranges : List FuncRange) (off : Int) : List FuncRange :=
  (sortRanges ranges).map (FuncRange.shift off)

/-- What a location stands for in the map that was read. -/
theorem info_located {sm : WasmSourceMap S} {off : Int} (e : LineEntry F) (hlam : Laminar ranges)
    (hfuncs : sm.funcs = functionNames (placed ranges off)) (hsrc : resolve e.file ∈ sm.sources) :
    ∃ x, info sm (located resolve (functionNames (placed ranges off)) off (placed ranges off)
      sm.sources e) = some x ∧ Shows resolve ranges e x := by
  have hinner : InnermostFunction ranges e.address
      ((covering (placed ranges off) (e.address + off)).getLast?.map FuncRange.name) := by
    have hsame (r : FuncRange) : r ∈ ranges ↔ r ∈ sortRanges ranges := mem_sortRanges.symm
    rw [innermost_congr hsame]
    apply innermost_shift off
    apply innermost_getLast (pairwise_shift off (pairwise_sortRanges ranges))
    apply laminar_shift
    exact fun r hr r' hr' => hlam r (mem_sortRanges.mp hr) r' (mem_sortRanges.mp hr')
  have hsource : index sm.sources (sm.sources.idxOf (resolve e.file) : Nat) =
      some (resolve e.file) := by rw [index_nat, List.getElem?_idxOf hsrc]
  have hcol : max (e.column : Int) 1 = (max e.column 1 : Nat) := by omega
  cases hlast : (covering (placed ranges off) (e.address + off)).getLast? with
  | none =>
    rw [hlast] at hinner
    exact ⟨⟨some (resolve e.file), e.line, (max e.column 1 : Nat), none⟩,
      by simp only [info, located, hcol, hlast, Option.map_none, hsource, Option.map_some, Option.pure_def,
        Option.bind_eq_bind, Option.bind_some], rfl, rfl, rfl, hinner⟩
  | some r =>
    rw [hlast] at hinner
    have hr := mem_functionNames (mem_covering.mp (List.mem_of_getLast? hlast)).1
    have hname : index sm.funcs ((functionNames (placed ranges off)).idxOf r.name : Nat) =
        some r.name := by rw [hfuncs, index_nat, List.getElem?_idxOf hr]
    exact ⟨⟨some (resolve e.file), e.line, (max e.column 1 : Nat), some r.name⟩,
      by simp only [info, located, hcol, hlast, Option.map_some, hsource, hname, Option.pure_def,
        Option.bind_eq_bind, Option.bind_some], rfl, rfl, rfl, hinner⟩

theorem addEntries_comma (resolve : F → S) (off : Int) (names : List String) (b : Builder S) :
    ∀ m ∈ (addEntries resolve names off b entries).1, ',' ∉ m := by
  induction entries generalizing b with
  | nil => simp [addEntries]
  | cons e es ih =>
    unfold addEntries
    split
    · exact ih b
    · intro m hm
      obtain rfl | hm := List.mem_cons.mp hm
      · exact addEntry_comma resolve names off e b
      · exact ih _ m hm

theorem addEntries_ne_nil (resolve : F → S) (off : Int) (names : List String) (b : Builder S)
    (h : ∃ e ∈ entries, e.line ≠ 0) :
    (addEntries resolve names off b entries).1 ≠ [] := by
  induction entries generalizing b with
  | nil => simp at h
  | cons e es ih =>
    unfold addEntries
    split
    next hline =>
      obtain ⟨e', he', hne⟩ := h
      obtain rfl | he' := List.mem_cons.mp he'
      · exact absurd hline hne
      · exact ih b ⟨e', he', hne⟩
    next => simp

omit [DecidableEq S] in
theorem entryAt_some {e : LineEntry F} (h : entryAt entries a = some e) :
    e ∈ kept entries ∧ e.address = a := by simpa using List.mem_of_getLast? h

/-- A map as written and read: the offsets in order, the sources and functions that the locations
need, and the location of the last entry of each address. -/
theorem parse_build (resolve : F → S) (ranges : List FuncRange) (off : Int) (hlines : ∃ e ∈ entries, e.line ≠ 0)
    (hsorted : entries.Pairwise (·.address ≤ ·.address)) :
    ∃ sm, parse (build_sourcemap resolve entries (sortRanges ranges) off) = some sm ∧
      sm.funcs = functionNames (placed ranges off) ∧
      sm.offsets = ((kept entries).map (·.address + off)).insertionSort (· ≤ ·) ∧
      (∀ e ∈ kept entries, resolve e.file ∈ sm.sources) ∧
      ∀ a, sm.mappings (a + off) = (entryAt entries a).map
        (located resolve (functionNames (placed ranges off)) off (placed ranges off) sm.sources) := by
  have htracks : Tracks (placed ranges off) (S := S) ⟨[], 0, 0, 1, 1, 0, [], placed ranges off⟩
      (off - 1) := ⟨[], rfl, by simp, rfl⟩
  have hfirst : ∀ e ∈ entries, off - 1 ≤ e.address + off := fun e _ => by
    have := e.valid
    omega
  obtain ⟨p', hadd, -, hreads⟩ := addEntries_read resolve (functionNames (placed ranges off)) off
    (pairwise_shift off (pairwise_sortRanges ranges)) htracks hfirst hsorted
    (p := ⟨0, 0, 1, 1, 0, fun _ => none, []⟩) ⟨rfl, rfl, rfl, rfl, rfl⟩
  have hsplit := splitMappings_join
    (addEntries_ne_nil resolve off (functionNames (placed ranges off))
      ⟨[], 0, 0, 1, 1, 0, [], placed ranges off⟩ hlines)
    (addEntries_comma resolve off (functionNames (placed ranges off)) _)
  refine ⟨⟨_, functionNames (placed ranges off), p'.mappings, p'.offsets.insertionSort (· ≤ ·)⟩, ?_, rfl, ?_, hreads.collected, ?_⟩
  · unfold parse build_sourcemap
    simp only
    rw [show (sortRanges ranges).map (FuncRange.shift off) = placed ranges off from rfl, hsplit, hadd]
    rfl
  · simp [hreads.offsets]
  · intro a
    refine (hreads.mappings a).trans ?_
    cases entryAt entries a <;> rfl

/-- Maps of wasm files are faithful. -/
theorem build_faithful {wasm : List UInt8} {code_section_offset : Nat}
    (hlines : ∃ e ∈ entries, e.line ≠ 0) (hsorted : entries.Pairwise (·.address ≤ ·.address))
    (hlam : Laminar ranges) (hwasm : get_code_section_offset wasm = some code_section_offset) :
    ∃ sm, parse (build_sourcemap resolve entries (sortRanges ranges) code_section_offset) = some sm ∧
      Faithful resolve entries ranges code_section_offset sm := by
  obtain ⟨sm, hparse, hfuncs, hoffsets, hsources, hmappings⟩ :=
    parse_build resolve ranges code_section_offset hlines hsorted
  refine ⟨sm, hparse, ?_⟩
  have hoffs : sm.offsets.Pairwise (· ≤ ·) := by
    rw [hoffsets]
    exact List.pairwise_insertionSort _ _
  have hmem (z : Int) : z ∈ sm.offsets ↔ ∃ e ∈ kept entries, e.address + code_section_offset = z := by
    rw [hoffsets, List.mem_insertionSort, List.mem_map]
  have hpresent (a : Int) (e : LineEntry F) (hat : entryAt entries a = some e) : ∃ loc x,
      sm.mappings (a + code_section_offset) = some loc ∧ info sm loc = some x ∧
        Shows resolve ranges e x := by
    obtain ⟨x, hx, hshows⟩ := info_located e hlam hfuncs
      (hsources e (entryAt_some hat).1)
    exact ⟨_, x, by rw [hmappings a, hat, Option.map_some], hx, hshows⟩
  constructor
  case absent =>
    intro a hat
    rw [hmappings a, hat, Option.map_none]
  case present => exact hpresent
  case none_below =>
    intro a hbelow
    have hnone : find_offset sm.offsets (a + code_section_offset) none = none := by
      refine find_offset_none hoffs fun z hz => ?_
      obtain ⟨e, he, rfl⟩ := (hmem z).mp hz
      have := hbelow e he
      omega
    simp [lookup, hnone]
  case nearest =>
    intro a e he hle hmax hat
    have hsome : find_offset sm.offsets (a + code_section_offset) none =
        some (e.address + code_section_offset) := by
      refine find_offset_some hoffs ((hmem _).mpr ⟨e, he, rfl⟩) (by omega) fun z hz hza => ?_
      obtain ⟨e', he', rfl⟩ := (hmem z).mp hz
      have := hmax e' he' (by omega)
      omega
    -- an offset is never 0: the code section is behind the header
    have hne : e.address + (code_section_offset : Int) ≠ 0 := by
      have := e.valid
      have := eight_le_code_section hwasm
      omega
    obtain ⟨loc, x, hloc, hinfo, hshows⟩ := hpresent _ e hat
    exact ⟨x, by simp [lookup, hsome, hne, hloc, hinfo], hshows⟩

/-- Two files, an address twice, an entry without a line, and a function inside another one. -/
theorem build_faithful_nested : ∃ sm : WasmSourceMap String,
    parse (build_sourcemap id
      [⟨-1, 3, 2, "a.c", by decide⟩, ⟨4, 7, 0, "a.c", by decide⟩, ⟨4, 90, 3, "b.c", by decide⟩,
        ⟨9, 0, 5, "b.c", by decide⟩, ⟨12, 2, 1, "a.c", by decide⟩]
      (sortRanges [⟨"inner", 3, 6⟩, ⟨"outer", 2, 10⟩]) (10 : Nat)) = some sm ∧
    Faithful id
      [⟨-1, 3, 2, "a.c", by decide⟩, ⟨4, 7, 0, "a.c", by decide⟩, ⟨4, 90, 3, "b.c", by decide⟩,
        ⟨9, 0, 5, "b.c", by decide⟩, ⟨12, 2, 1, "a.c", by decide⟩]
      [⟨"inner", 3, 6⟩, ⟨"outer", 2, 10⟩] (10 : Nat) sm := by
  have hwasm : get_code_section_offset [0, 97, 115, 109, 1, 0, 0, 0, 10, 2, 1, 0] = some 10 := by
    decide
  refine build_faithful ⟨⟨4, 7, 0, "a.c", by decide⟩, by simp, by decide⟩ ?_ ?_ hwasm
  · simp
  · intro r hr r' hr'
    simp only [List.mem_cons, List.not_mem_nil, or_false] at hr hr'
    obtain rfl | rfl := hr <;> obtain rfl | rfl := hr' <;> simp [FuncRange.Inside]

end Faithfulness

end SourceMap
