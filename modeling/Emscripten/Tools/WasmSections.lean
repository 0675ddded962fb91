-- SUMMARY: Sections of a wasm binary: taking debug sections out, and adding the URL of a source map.
import Emscripten.Lib.Leb128

/-!
# Sections of a binary

A binary is a header and sections. `strip_debug_sections` compares the names of custom sections with texts, and
`append_source_mapping` adds a section that the `Module` of another tool reads.
-/

namespace WasmSections

open Leb128

/-! ## Well-formed binaries -/

/-- `str.encode()`. -/
def utf8 (cs : List Char) : List UInt8 := cs.flatMap String.utf8EncodeChar

/-- A custom section starts with its name. -/
inductive Content
  | custom (nameLength : List UInt8) (name : List Char) (payload : List UInt8)
      (encodes : Encodes nameLength (utf8 name).length)
  | known (id : UInt8) (content : List UInt8) (valid : 0 < id.toNat ∧ id.toNat ≤ 13)

def Content.id : Content → UInt8
  | custom .. => 0
  | known id .. => id

def Content.bytes : Content → List UInt8
  | custom nameLength name payload _ => nameLength ++ (utf8 name ++ payload)
  | known _ content _ => content

def Content.name : Content → Option (List Char)
  | custom _ name .. => some name
  | known .. => none

/-- The size is encoded in any number of bytes. -/
structure Section where
  content : Content
  size : List UInt8
  encodes : Encodes size content.bytes.length

def Section.bytes (s : Section) : List UInt8 := s.content.id :: (s.size ++ s.content.bytes)

def header : List UInt8 := [0x00, 0x61, 0x73, 0x6d, 0x01, 0x00, 0x00, 0x00]

def body (w : List Section) : List UInt8 := w.flatMap Section.bytes

/-- The binary with these sections. -/
def binary (w : List Section) : List UInt8 := header ++ body w

variable (w : List Section)

theorem binary_append (s : Section) : binary (w ++ [s]) = binary w ++ s.bytes := by
  unfold binary body
  rw [List.flatMap_append, List.flatMap_singleton, List.append_assoc]

/-! ## The tool -/

/-- `wasm[i:j]`. -/
def slice (wasm : List UInt8) (i j : Nat) : List UInt8 := (wasm.drop i).take (j - i)

def read_var_uint (wasm : List UInt8) : Reader Nat := readAt wasm

def hexDigit (n : Nat) : Char := if n < 10 then Char.ofNat (48 + n) else Char.ofNat (87 + n)

def escape (quote : Char) (b : UInt8) : List Char :=
  let c := Char.ofNat b.toNat
  if c = quote ∨ c = '\\' then ['\\', c]
  else if b = 9 then ['\\', 't']
  else if b = 10 then ['\\', 'n']
  else if b = 13 then ['\\', 'r']
  else if b < 32 ∨ 127 ≤ b then ['\\', 'x', hexDigit (b.toNat / 16), hexDigit (b.toNat % 16)]
  else [c]

/-- `str` of `bytes` is the text of a literal. -/
def str (bs : List UInt8) : List Char :=
  let quote := if 39 ∈ bs ∧ 34 ∉ bs then '"' else '\''
  'b' :: quote :: (bs.flatMap (escape quote) ++ [quote])

def isDebugName (name : List Char) : Bool :=
  name == "linking".toList || name == "sourceMappingURL".toList ||
    "reloc..debug_".toList.isPrefixOf name || ".debug_".toList.isPrefixOf name

/-- Each turn of the loop goes at least two bytes on. -/
def stripLoop (wasm : List UInt8) : Nat → Nat → List UInt8 → Option (List UInt8)
  | 0, _, _ => none
  | turns + 1, pos, stripped =>
    if pos < wasm.length then do
      let (section_id, pos_) ← read_var_uint wasm pos
      let (section_size, section_body) ← read_var_uint wasm pos_
      let next := section_body + section_size
      let skip ← if section_id = 0 then do
          let (name_len, name_pos) ← read_var_uint wasm section_body
          some (isDebugName (str (slice wasm name_pos (name_pos + name_len))))
        else some false
      stripLoop wasm turns next (if skip then stripped else stripped ++ slice wasm pos next)
    else some stripped

def strip_debug_sections (wasm : List UInt8) : Option (List UInt8) :=
  stripLoop wasm (wasm.length + 1) 8 (wasm.take 8)

def encode_uint_var (n : Nat) : List UInt8 := encode n

def append_source_mapping (wasm : List UInt8) (url : List Char) : List UInt8 :=
  let section_name := "sourceMappingURL".toList
  let section_content := encode_uint_var section_name.length ++ utf8 section_name ++
    encode_uint_var url.length ++ utf8 url
  wasm ++ encode_uint_var 0 ++ encode_uint_var section_content.length ++ section_content

/-! ## The `Module` of the other tool -/

/-- `bytes.decode('utf-8')`. -/
def decode (bs : List UInt8) : Option (List Char) := bs.toByteArray.utf8Decode?.map Array.toList

def read_uleb (buf : List UInt8) : Reader Nat := collectAt buf

def read_string (buf : List UInt8) : Reader (List Char) := fun pos => do
  let (size, start) ← read_uleb buf pos
  let bs := (buf.drop start).take size
  let text ← decode bs
  some (text, start + bs.length)

structure SectionInfo where
  type : UInt8
  size : Nat
  offset : Nat
  name : Option (List Char)

/-- What `sections` gives at an offset. -/
def sectionAt (buf : List UInt8) (offset : Nat) : Option SectionInfo := do
  let type ← buf[offset]?
  if type.toNat ≤ 13 then do
    let (size, start) ← read_uleb buf (offset + 1)
    let name ← if type = 0 then (read_string buf start).map fun x => some x.1 else some none
    some ⟨type, size, start, name⟩
  else none

def customLoop (buf : List UInt8) (name : List Char) : Nat → Nat → Option (Option SectionInfo)
  | 0, _ => none
  | turns + 1, offset =>
    if offset < buf.length then do
      let s ← sectionAt buf offset
      if s.type = 0 ∧ s.name = some name then some (some s) else customLoop buf name turns (s.offset + s.size)
    else some none

def get_custom_section (buf : List UInt8) (name : List Char) : Option (Option SectionInfo) :=
  customLoop buf name (buf.length + 1) 8

def get_sourceMappingURL (buf : List UInt8) : Option (List Char) := do
  match ← get_custom_section buf "sourceMappingURL".toList with
  | none => some []
  | some s => do
    let (_, pos) ← read_string buf s.offset
    let (url, _) ← read_string buf pos
    some url

/-! ## Reading sections -/

theorem decode_eq_some {bs : List UInt8} {cs : List Char} : decode bs = some cs ↔ utf8 cs = bs := by
  constructor
  · intro h
    obtain ⟨arr, harr, rfl⟩ := Option.map_eq_some_iff.1 h
    have hback := ByteArray.utf8Encode_get_utf8Decode? (b := bs.toByteArray) (h := Option.isSome_of_eq_some harr)
    simp only [harr, Option.get_some] at hback
    exact List.toByteArray_inj.1 hback
  · rintro rfl
    unfold decode
    have hencode : (utf8 cs).toByteArray = cs.utf8Encode := rfl
    rw [hencode, List.utf8Decode?_utf8Encode]
    rfl

theorem length_utf8_cons (c : Char) (cs : List Char) : (utf8 (c :: cs)).length = c.utf8Size + (utf8 cs).length := by
  unfold utf8
  rw [List.flatMap_cons, List.length_append, String.length_utf8EncodeChar]

theorem length_le_utf8 (cs : List Char) : cs.length ≤ (utf8 cs).length := by
  induction cs with
  | nil => exact Nat.le_refl _
  | cons c cs ih =>
    have hpos := c.utf8Size_pos
    rw [length_utf8_cons, List.length_cons]
    omega

/-- As many bytes as characters are all of a text of ASCII only. -/
theorem length_utf8_le_iff {cs : List Char} : (utf8 cs).length ≤ cs.length ↔ ∀ c ∈ cs, c.val ≤ 127 := by
  induction cs with
  | nil => exact ⟨fun _ _ h => (List.not_mem_nil h).elim, fun _ => Nat.le_refl _⟩
  | cons c cs ih =>
    have hpos := c.utf8Size_pos
    have hle := length_le_utf8 cs
    rw [length_utf8_cons, List.length_cons, List.forall_mem_cons, ← Char.utf8Size_eq_one_iff, ← ih]
    omega

section

variable {buf part rest : List UInt8} {pos : Nat}

/-- Behind a part that was read. -/
theorem drop_behind (h : buf.drop pos = part ++ rest) : buf.drop (pos + part.length) = rest := by
  rw [← List.drop_drop, h, List.drop_left]

theorem lt_length_of_drop {b : UInt8} (h : buf.drop pos = b :: rest) : pos < buf.length := by
  have hlength := congrArg List.length h
  rw [List.length_drop, List.length_cons] at hlength
  omega

theorem slice_of_drop {n : Nat} (h : buf.drop pos = part ++ rest) (hn : n = pos + part.length) : slice buf pos n = part := by
  subst hn
  unfold slice
  rw [h, Nat.add_sub_cancel_left, List.take_left]

theorem read_string_of_drop {length : List UInt8} {n : Nat} (hlength : Encodes length n)
    (h : buf.drop pos = length ++ rest) :
    read_string buf pos =
      (decode (rest.take n)).map fun text => (text, pos + length.length + (rest.take n).length) := by
  have hread := collectAt_encodes hlength h
  have hdrop := drop_behind h
  unfold read_string read_uleb
  rw [hread]
  simp only [Option.bind_eq_bind, Option.bind_some, hdrop]
  cases decode (rest.take n) <;> rfl

theorem decode_take (text : List Char) (rest : List UInt8) :
    decode ((utf8 text ++ rest).take (utf8 text).length) = some text := by
  rw [List.take_left]
  exact decode_eq_some.2 rfl

end

/-- What stands at a section. -/
structure At (buf : List UInt8) (pos : Nat) (s : Section) (rest : List UInt8) : Prop where
  drop : buf.drop pos = s.bytes ++ rest

namespace At

variable {buf rest : List UInt8} {pos : Nat} {s : Section}

theorem lt_length (h : At buf pos s rest) : pos < buf.length := lt_length_of_drop h.drop

theorem drop_size (h : At buf pos s rest) : buf.drop (pos + 1) = s.size ++ (s.content.bytes ++ rest) := by
  have hdrop : buf.drop (pos + 1) = s.size ++ s.content.bytes ++ rest := @drop_behind buf [s.content.id] (s.size ++ s.content.bytes ++ rest) pos h.drop
  rwa [List.append_assoc] at hdrop

theorem drop_content (h : At buf pos s rest) : buf.drop (pos + 1 + s.size.length) = s.content.bytes ++ rest :=
  drop_behind h.drop_size

theorem length_bytes (s : Section) : s.bytes.length = 1 + s.size.length + s.content.bytes.length := by
  unfold Section.bytes
  rw [List.length_cons, List.length_append]
  omega

theorem next (h : At buf pos s rest) : buf.drop (pos + 1 + s.size.length + s.content.bytes.length) = rest := by
  have hdrop := drop_behind h.drop
  rwa [length_bytes, ← Nat.add_assoc, ← Nat.add_assoc] at hdrop

end At

theorem Content.id_lt (c : Content) : c.id.toNat ≤ 13 := by
  cases c with
  | custom => exact Nat.zero_le _
  | known _ _ valid => exact valid.2

theorem sectionAt_eq {buf rest : List UInt8} {pos : Nat} {s : Section} (h : At buf pos s rest) :
    sectionAt buf pos = some ⟨s.content.id, s.content.bytes.length, pos + 1 + s.size.length, s.content.name⟩ := by
  have htype : buf[pos]? = some s.content.id := by
    have hhead := congrArg List.head? h.drop
    rwa [List.head?_drop] at hhead
  have hread := collectAt_encodes s.encodes h.drop_size
  have hcontent := h.drop_content
  unfold sectionAt read_uleb
  simp only [htype, Option.bind_eq_bind, Option.bind_some, if_pos s.content.id_lt, hread]
  cases hc : s.content with
  | custom nameLength name payload encodes =>
    rw [hc] at hcontent
    have hname := read_string_of_drop encodes (hcontent.trans (List.append_assoc ..))
    rw [List.append_assoc, decode_take] at hname
    rw [if_pos (show (Content.custom nameLength name payload encodes).id = 0 from rfl), hname]
    rfl
  | known id content valid =>
    have hid : id ≠ 0 := by
      rintro rfl
      exact absurd valid.1 (Nat.lt_irrefl 0)
    exact if_neg (show (Content.known id content valid).id ≠ 0 from hid)

/-! ## Taking sections out -/

theorem isDebugName_str (bs : List UInt8) : isDebugName (str bs) = false := rfl

/-- Nothing is taken out: no text of a literal is a name to take out. -/
theorem stripLoop_sections (buf : List UInt8) : ∀ (w : List Section) (turns pos : Nat) (stripped : List UInt8),
    buf.drop pos = body w → w.length < turns → stripLoop buf turns pos stripped = some (stripped ++ body w) := by
  intro w
  induction w with
  | nil =>
    intro turns pos stripped hdrop hturns
    obtain ⟨turns, rfl⟩ := Nat.exists_eq_succ_of_ne_zero (Nat.ne_of_gt hturns)
    have hend : ¬ pos < buf.length := Nat.not_lt.2 (List.drop_eq_nil_iff.1 hdrop)
    rw [stripLoop, if_neg hend]
    exact congrArg some (List.append_nil _).symm
  | cons s w ih =>
    intro turns pos stripped hdrop hturns
    obtain ⟨turns, rfl⟩ := Nat.exists_eq_succ_of_ne_zero (Nat.ne_of_gt (Nat.zero_lt_of_lt hturns))
    have hat : At buf pos s (body w) := ⟨hdrop⟩
    have hid := s.content.id_lt
    have hread : Leb128.Encodes [s.content.id] s.content.id.toNat := .last (Nat.lt_of_le_of_lt hid (by decide))
    have htype := readAt_encodes hread hat.drop
    have hsize := readAt_encodes s.encodes hat.drop_size
    have hslice := slice_of_drop hat.drop (n := pos + 1 + s.size.length + s.content.bytes.length)
      (by rw [At.length_bytes]; omega)
    have hrest := ih turns _ (stripped ++ s.bytes) hat.next (Nat.lt_of_succ_lt_succ hturns)
    have hbody : body (s :: w) = s.bytes ++ body w := rfl
    rw [hbody, ← List.append_assoc, ← hrest, stripLoop, if_pos hat.lt_length]
    unfold read_var_uint
    simp only [htype, List.length_singleton, hsize, Option.bind_eq_bind, Option.bind_some, hslice]
    cases hc : s.content with
    | custom nameLength name payload encodes =>
      have hcontent := hat.drop_content
      rw [hc] at hcontent
      have hname := readAt_encodes encodes (List.append_assoc .. ▸ hcontent)
      rw [if_pos (show (Content.custom nameLength name payload encodes).id.toNat = 0 from rfl), hname]
      simp only [Option.bind_some, isDebugName_str, Bool.false_eq_true, if_false]
    | known id content valid =>
      rw [if_neg (show (Content.known id content valid).id.toNat ≠ 0 from Nat.ne_of_gt valid.1)]
      rfl

theorem length_le_body : w.length ≤ (body w).length := by
  induction w with
  | nil => exact Nat.le_refl _
  | cons s w ih =>
    have hbytes := At.length_bytes s
    have hbody : (body (s :: w)).length = s.bytes.length + (body w).length := List.length_append
    rw [hbody, List.length_cons]
    omega

theorem strip_eq : strip_debug_sections (binary w) = some (binary w) := by
  have hturns : w.length < (binary w).length + 1 := by
    have hle := length_le_body w
    have hlength : (binary w).length = header.length + (body w).length := List.length_append
    omega
  exact stripLoop_sections (binary w) w _ 8 header (List.drop_left' rfl) hturns

def Section.isDebug (s : Section) : Bool := s.content.name.any isDebugName

theorem body_filter_eq_iff (p : Section → Bool) (w : List Section) :
    (body (w.filter p)).length ≤ (body w).length ∧ (body (w.filter p) = body w ↔ ∀ s ∈ w, p s = true) := by
  induction w with
  | nil => exact ⟨Nat.le_refl _, fun _ _ h => (List.not_mem_nil h).elim, fun _ => rfl⟩
  | cons s w ih =>
    have hbytes := At.length_bytes s
    have hbody : body (s :: w) = s.bytes ++ body w := rfl
    rw [List.forall_mem_cons, hbody, List.length_append]
    cases hp : p s with
    | true =>
      have hfilter : body ((s :: w).filter p) = s.bytes ++ body (w.filter p) := by
        rw [List.filter_cons_of_pos hp]
        rfl
      rw [hfilter, List.length_append, List.append_cancel_left_eq, ih.2]
      exact ⟨Nat.add_le_add_left ih.1 _, fun h => ⟨rfl, h⟩, fun h => h.2⟩
    | false =>
      rw [List.filter_cons_of_neg (Bool.not_eq_true _ ▸ hp)]
      refine ⟨Nat.le_trans ih.1 (Nat.le_add_left ..), fun heq => ?_, fun h => nomatch h.1⟩
      have hlength := congrArg List.length heq
      rw [List.length_append] at hlength
      omega

/-- Exactly the sections that are no debug sections are kept where there is no debug section. -/
theorem strip_debug_sections_iff (w : List Section) :
    strip_debug_sections (binary w) = some (binary (w.filter fun s => !s.isDebug)) ↔ ∀ s ∈ w, s.isDebug = false := by
  have hiff := (body_filter_eq_iff (fun s => !s.isDebug) w).2
  simp only [Bool.not_eq_true'] at hiff
  rw [strip_eq, ← hiff, Option.some.injEq]
  unfold binary
  rw [List.append_cancel_left_eq]
  exact eq_comm

/-- A section that is named `linking` and has nothing else in it. -/
def linking : Section := ⟨.custom [7] "linking".toList [] (.last (b := 7) (by decide)), [8], .last (b := 8) (by decide)⟩

theorem strip_debug_sections_linking :
    linking.isDebug = true ∧ (binary [linking]).drop 8 = [0, 8, 7, 108, 105, 110, 107, 105, 110, 103] ∧
      strip_debug_sections (binary [linking]) = some (binary [linking]) ∧
      strip_debug_sections (binary [linking]) ≠ some (binary ([linking].filter fun s => !s.isDebug)) := by
  have hstrip := strip_eq [linking]
  refine ⟨by decide, by decide, hstrip, ?_⟩
  rw [hstrip]
  decide

/-! ## Adding a section -/

/-- The section with this URL. -/
def urlContent (url : List Char) : Content :=
  .custom (encode 16) "sourceMappingURL".toList (encode url.length ++ utf8 url) (encodes_encode 16)

def urlSection (url : List Char) : Section := ⟨urlContent url, encode (urlContent url).bytes.length, encodes_encode _⟩

theorem append_eq (url : List Char) :
    append_source_mapping (binary w) url = binary (w ++ [urlSection url]) := by
  rw [binary_append]
  have hcontent : encode 16 ++ utf8 "sourceMappingURL".toList ++ encode url.length ++ utf8 url =
      (urlContent url).bytes := by
    rw [List.append_assoc, List.append_assoc]
    rfl
  unfold append_source_mapping encode_uint_var
  rw [encode_of_le (Nat.zero_le _)]
  change binary w ++ [0] ++ encode (encode 16 ++ _ ++ _ ++ _).length ++ (encode 16 ++ _ ++ _ ++ _) = _
  rw [hcontent, List.append_assoc, List.append_assoc]
  rfl

/-- Sections with other names are passed. -/
theorem customLoop_passes (buf : List UInt8) (name : List Char) (rest : List UInt8) (turns : Nat) :
    ∀ (w : List Section) (pos : Nat), (∀ s ∈ w, s.content.name ≠ some name) → buf.drop pos = body w ++ rest →
      customLoop buf name (turns + w.length) pos = customLoop buf name turns (pos + (body w).length) := by
  intro w
  induction w with
  | nil => exact fun _ _ _ => rfl
  | cons s w ih =>
    intro pos hnames hdrop
    have hat : At buf pos s (body w ++ rest) := ⟨hdrop.trans (List.append_assoc ..)⟩
    have hname := hnames s List.mem_cons_self
    have hrest := ih _ (fun s hs => hnames s (List.mem_cons_of_mem _ hs)) hat.next
    have hbytes := At.length_bytes s
    have hbody : (body (s :: w)).length = s.bytes.length + (body w).length := List.length_append
    have hend : pos + 1 + s.size.length + s.content.bytes.length + (body w).length = pos + (body (s :: w)).length := by
      omega
    rw [← hend, ← hrest, List.length_cons, ← Nat.add_assoc, customLoop, if_pos hat.lt_length, sectionAt_eq hat]
    simp only [Option.bind_eq_bind, Option.bind_some]
    exact if_neg fun h => hname h.2

/-- As many bytes of the URL are read as it has characters. -/
theorem get_append (url : List Char) (hnone : ∀ s ∈ w, s.content.name ≠ some "sourceMappingURL".toList) :
    get_sourceMappingURL (binary (w ++ [urlSection url])) = decode ((utf8 url).take url.length) := by
  obtain ⟨buf, hbuf⟩ : ∃ buf, buf = binary (w ++ [urlSection url]) := ⟨_, rfl⟩
  have hbody : body (w ++ [urlSection url]) = body w ++ ((urlSection url).bytes ++ []) := by
    unfold body
    rw [List.flatMap_append, List.flatMap_singleton, List.append_nil]
  have hdrop : buf.drop 8 = body w ++ ((urlSection url).bytes ++ []) := by
    rw [hbuf, ← hbody]
    exact List.drop_left' rfl
  have hat : At buf (8 + (body w).length) (urlSection url) [] := ⟨drop_behind hdrop⟩
  have hturns : ∃ turns, buf.length + 1 = turns + 1 + w.length := by
    have hle := length_le_body w
    have hlt := hat.lt_length
    exact ⟨buf.length - w.length, by omega⟩
  obtain ⟨turns, hturns⟩ := hturns
  have hfound : get_custom_section buf "sourceMappingURL".toList = some (some
      ⟨0, (urlContent url).bytes.length, 8 + (body w).length + 1 + (urlSection url).size.length,
        some "sourceMappingURL".toList⟩) := by
    unfold get_custom_section
    rw [hturns, customLoop_passes buf _ _ (turns + 1) w 8 hnone hdrop, customLoop, if_pos hat.lt_length, sectionAt_eq hat]
    have hsame : (urlSection url).content.id = 0 ∧ (urlSection url).content.name = some "sourceMappingURL".toList :=
      ⟨rfl, rfl⟩
    simp only [Option.bind_eq_bind, Option.bind_some]
    rw [if_pos hsame]
    rfl
  have hcontent : buf.drop (8 + (body w).length + 1 + (urlSection url).size.length) =
      encode 16 ++ (utf8 "sourceMappingURL".toList ++ (encode url.length ++ utf8 url)) :=
    hat.drop_content.trans (List.append_nil _)
  have hname := read_string_of_drop (encodes_encode 16) hcontent
  have hlength : (utf8 "sourceMappingURL".toList).length = 16 := by decide
  rw [← hlength, decode_take, List.take_left, hlength] at hname
  have hbehind := drop_behind (drop_behind hcontent)
  rw [hlength] at hbehind
  have hurl := read_string_of_drop (encodes_encode url.length) hbehind
  unfold get_sourceMappingURL
  rw [← hbuf, hfound]
  simp only [Option.bind_eq_bind, Option.bind_some, hname, Option.map_some, hurl]
  cases decode ((utf8 url).take url.length) <;> rfl

/-- The output is the old sections and one more, and the URL is read back where it has ASCII characters only. -/
theorem append_source_mapping_iff (w : List Section) (url : List Char)
    (hnone : ∀ s ∈ w, s.content.name ≠ some "sourceMappingURL".toList) :
    ((∃ s, append_source_mapping (binary w) url = binary (w ++ [s])) ∧
      get_sourceMappingURL (append_source_mapping (binary w) url) = some url) ↔ ∀ c ∈ url, c.val ≤ 127 := by
  rw [append_eq, get_append w url hnone, decode_eq_some, ← length_utf8_le_iff]
  constructor
  · intro h
    have hlength := congrArg List.length h.2
    rw [List.length_take] at hlength
    omega
  · intro h
    exact ⟨⟨_, rfl⟩, (List.take_of_length_le h).symm⟩

theorem append_source_mapping_map :
    get_sourceMappingURL (append_source_mapping (binary []) ['m']) = some ['m'] :=
  ((append_source_mapping_iff [] ['m'] fun _ h => (List.not_mem_nil h).elim).2
    (List.forall_mem_singleton.2 (by decide))).2

/-- Two bytes are read of a URL of two characters that has three. -/
theorem append_source_mapping_cut :
    get_sourceMappingURL (append_source_mapping (binary []) ['é', 'x']) = some ['é'] ∧
      get_sourceMappingURL (append_source_mapping (binary []) ['é', 'x']) ≠ some ['é', 'x'] := by
  have hread : get_sourceMappingURL (append_source_mapping (binary []) ['é', 'x']) = some ['é'] := by
    rw [append_eq, get_append [] _ fun _ h => (List.not_mem_nil h).elim]
    exact decode_eq_some.2 (by decide)
  rw [hread]
  exact ⟨rfl, by decide⟩

end WasmSections
