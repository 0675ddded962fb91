-- SUMMARY: Runs on case-insensitive directories: which of them keep names, maps and entries in step, and which break it.
import Emscripten.WasmFS.CaseOperations

/-!
# Runs on case-insensitive directories

The mounts of a case-insensitive directory are kept by the code that all directories
share, under the spelling they were made with. A mount whose name has letters is found
under that spelling alone, and a mount that is moved enters the map as well as the dcache.
As long as a run does neither, all spellings of a name find the same file, and every file
is listed once.
-/

namespace WasmFS

open Assoc Prog

/-! ## Runs -/

namespace CaseFS

def IsDirectory (s : CaseFS) (d : FileId) : Prop :=
  s.virtual d ≠ none ∧ (s.fs.file d).kind = .directory

/-- The directory `d` holds the file `f`, and lists it under the inode number `i`: that
of the wrapped file, or its own for a mount. -/
inductive Resident (s : CaseFS) (d : FileId) : FileId → FileId → Prop
  | child {n : Name} {info : ChildInfo} {i : FileId} (hchild : s.child d n = some info)
      (hi : s.real info.child = some i) : Resident s d info.child i
  | mount {n : Name} {e : DCacheEntry} (he : (s.fs.file d).dcache.lookup n = some e) :
      Resident s d e.file e.file

def Mounted (s : CaseFS) (f : FileId) : Prop :=
  ∃ d n e, (s.fs.file d).dcache.lookup n = some e ∧ e.file = f

def inEnv (s : CaseFS) (env : Env) : CaseFS := s.modifyFS fun fs => { fs with env := env }

/-- A plain directory, outside the backend. -/
def outside (env : Env) : CaseFS where
  fs := ((FS.blank env).addFile (newDirectory none 0o777 env.now)).setParent 0 (some 0)
  virtual := fun _ => none

/-- A new case-insensitive backend with its root directory, which is the root of the file
system or has been linked into a directory outside. -/
def start (wrapped : Nat) (backend : Backend) (mode : Nat) (env : Env) (atRoot : Bool) : CaseFS :=
  match (NewMount.ignoreCaseDirectory wrapped backend mode).create (outside env) with
  | some (s, .ok (some d)) => s.modifyFS fun fs => fs.setParent d (some (if atRoot then d else 0))
  | _ => outside env

end CaseFS

namespace CaseCall

/-- What the callers see to: the directories are those of the backend, and what is moved
is in one of them. -/
def Valid (c : CaseCall) (s : CaseFS) : Prop :=
  match c with
  | .lookup d _ => s.IsDirectory d
  | .insert d _ _ => s.IsDirectory d
  | .mount d _ _ => s.IsDirectory d
  | .remove d _ => s.IsDirectory d
  | .move d _ f => s.IsDirectory d ∧ ∃ p i, s.IsDirectory p ∧ s.Resident p f i

/-- The call mounts nothing under a name that has another spelling, and moves neither a
mount nor a symbolic link. In an unlinked directory it does neither. -/
def Spares (c : CaseCall) (s : CaseFS) : Prop :=
  match c with
  | .mount d name _ => (s.fs.file d).parent = none ∨ SoleSpelling name
  | .move d _ f => (s.fs.file d).parent = none ∨ (¬ s.Mounted f ∧ (s.fs.file f).kind ≠ .symlink)
  | _ => True

/-- The call moves neither a mount nor a symbolic link, but in an unlinked directory. -/
def MovesPlain (c : CaseCall) (s : CaseFS) : Prop :=
  match c with
  | .move d _ f => (s.fs.file d).parent = none ∨ (¬ s.Mounted f ∧ (s.fs.file f).kind ≠ .symlink)
  | _ => True

theorem Spares.movesPlain {c : CaseCall} {s : CaseFS} (h : c.Spares s) : c.MovesPlain s := by
  cases c with
  | lookup d name => trivial
  | insert d name x => trivial
  | mount d name x => trivial
  | remove d name => trivial
  | move d name f => exact h

/-- The names of the files after the call. -/
def spell (c : CaseCall) (r : Except Errno (Option FileId)) (sp : FileId → Name) : FileId → Name :=
  match r with
  | .ok (some f) => Function.update sp f c.name
  | _ => sp

end CaseCall

/-- The states that a run reaches, with the name each file was last created, mounted or
moved under. Between two calls anything outside may change. -/
inductive CaseReached (P : CaseCall → CaseFS → Prop) : CaseFS → (FileId → Name) → Prop
  | start (wrapped : Nat) (backend : Backend) (mode : Nat) (env : Env) (atRoot : Bool) :
      CaseReached P (.start wrapped backend mode env atRoot) fun _ => []
  | call {s : CaseFS} {sp : FileId → Name} (h : CaseReached P s sp) (c : CaseCall) (env : Env)
      (s' : CaseFS) (r : Except Errno (Option FileId)) (hvalid : c.Valid s) (hP : P c s)
      (hr : c.exec (s.inEnv env) = some (s', r)) : CaseReached P s' (c.spell r sp)

/-! ## What is kept -/

/-- Names, maps and entries are in step. -/
structure CaseFS.Coherent (s : CaseFS) (sp : FileId → Name) : Prop where
  /-- Two spellings of a name find the same file, or nothing. -/
  resolves : ∀ d a b, s.virtual d ≠ none → normalize a = normalize b → ∃ f,
    CaseDirectory.getChild d a s = some (s, .ok f) ∧ CaseDirectory.getChild d b s = some (s, .ok f)
  /-- The map and the entries of the wrapped directory have the same names and files. -/
  bijective : ∀ d v, s.virtual d = some v →
    (v.children.entries.map fun e => (e.1, s.real e.2.child)).Perm
      ((s.fs.file v.real).entries.map fun e => (e.1, some e.2))
  files_nodup : ∀ d v, s.virtual d = some v → ((s.fs.file v.real).entries.map Prod.snd).Nodup
  /-- A file of a directory has one entry, with the name it was last given. -/
  listed : ∀ d f i, s.virtual d ≠ none → s.Resident d f i →
    (CaseDirectory.getEntries s d).filter (fun e => e.ino = some i) =
      [⟨sp f, (s.fs.file i).kind, some i⟩]
  listed_resident : ∀ d e, s.virtual d ≠ none → e ∈ CaseDirectory.getEntries s d →
    ∃ f i, s.Resident d f i ∧ e.ino = some i
  /-- No two files share an inode number, and no file has two. -/
  once : ∀ d f g i j, s.Resident d f i → s.Resident d g j → (f = g ↔ i = j)

variable {v : Virtual}

section Keeping

variable {s s' : CaseFS} {sp : FileId → Name} {d f i : FileId}

/-- Every mount has a name with one spelling. -/
def CaseFS.SoleMounts (s : CaseFS) : Prop :=
  ∀ d n e, s.layers.tree.mount d n = some e → SoleSpelling n

theorem CaseFS.SoleMounts.of_from (h : s.SoleMounts) (hm : s.MountsFrom s') : s'.SoleMounts :=
  fun d n e he => h d n e (hm d n e he)

theorem CaseFS.real_of_virtual (h : s.virtual d ≠ none) : ∃ D, s.real d = some D := by
  obtain ⟨v, hv⟩ := Option.ne_none_iff_exists'.mp h
  exact ⟨v.real, Option.map_eq_some_iff.mpr ⟨v, hv, rfl⟩⟩

/-- Spellings of one name are not told apart where no mount has another spelling. -/
theorem CaseFS.SoleMounts.find_eq (h : s.SoleMounts) {a b : Name} (hab : normalize a = normalize b) :
    s.layers.find d a = s.layers.find d b := by
  by_cases heq : a = b
  · rw [heq]
  have hdot : ∀ {n m : Name}, normalize n = normalize m → n ≠ m → n ≠ dot ∧ n ≠ dotDot := by
    intro n m hnm hne
    refine ⟨?_, ?_⟩
    · rintro rfl
      exact hne (soleSpelling_dot m hnm.symm).symm
    · rintro rfl
      exact hne (soleSpelling_dotDot m hnm.symm).symm
  have hmount : ∀ {n m : Name}, normalize n = normalize m → n ≠ m → s.layers.tree.mount d n = none := by
    intro n m hnm hne
    cases he : s.layers.tree.mount d n with
    | none => rfl
    | some e => exact absurd (h d n e he m hnm.symm).symm hne
  obtain ⟨ha, ha'⟩ := hdot hab heq
  obtain ⟨hb, hb'⟩ := hdot hab.symm (Ne.symm heq)
  unfold Layers.find
  simp only [if_neg ha, if_neg ha', if_neg hb, if_neg hb', hmount hab heq, hmount hab.symm (Ne.symm heq), hab]

/-! ### Listing -/

theorem Layers.Paired.mounts_mem {L : Layers} (h : L.Paired sp) {fs : FS} (hL : L.tree = fs.tree)
    {n : Name} {m : FileId} : (n, m) ∈ fs.mounts d ↔ ∃ e, L.tree.mount d n = some e ∧ e.file = m := by
  unfold FS.mounts
  rw [List.mem_map]
  refine ⟨?_, ?_⟩
  · rintro ⟨⟨n', e⟩, hmem, heq⟩
    cases heq
    rw [hL]
    exact ⟨e, AList.mem_lookup_iff.mpr (List.mem_filter.mp hmem).1, rfl⟩
  · rintro ⟨e, he, rfl⟩
    refine ⟨⟨n, e⟩, List.mem_filter.mpr ⟨?_, ?_⟩, rfl⟩
    · rw [hL] at he
      exact AList.mem_lookup_iff.mp he
    · simp [h.mount_kind d n e he]

/-- What `getEntries` of the backend makes of the entries of the wrapped directory. -/
theorem CaseFS.Sound.getEntries_eq (h : s.Sound sp) (hv : s.virtual d = some v) :
    IgnoreCaseDirectory.getEntries s d = (s.fs.file v.real).entries.map fun e =>
      ⟨((s.layers.child d e.1).map ChildInfo.originalName).getD e.1, (s.fs.file e.2).kind, some e.2⟩ := by
  have hreal : s.layers.real d = some v.real := Option.map_eq_some_iff.mpr ⟨v, hv, rfl⟩
  have hmounts : s.fs.mounts v.real = [] := by
    rw [List.eq_nil_iff_forall_not_mem]
    rintro ⟨n, m⟩ hmem
    obtain ⟨e, he, _⟩ := (h.paired.mounts_mem rfl).mp hmem
    rw [h.paired.real_mount d _ n hreal] at he
    cases he
  unfold IgnoreCaseDirectory.getEntries
  rw [hv]
  simp only []
  unfold FS.getEntries FS.listed
  rw [hmounts, List.append_nil, List.map_map]
  refine List.map_congr_left fun e he => ?_
  simp only [Function.comp_apply, child_eq_lookup hv]
  cases v.children.lookup e.1 with
  | none => rfl
  | some info => rfl

theorem CaseFS.Sound.mounts_nodup (h : s.Sound sp) : ((s.fs.mounts d).map Prod.snd).Nodup := by
  unfold FS.mounts
  rw [List.map_map]
  refine List.Nodup.map_on ?_ ((s.fs.file d).dcache.nodupKeys.nodup.filter _)
  intro x hx y hy heq
  have hx' := AList.mem_lookup_iff.mpr (List.mem_filter.mp hx).1
  have hy' := AList.mem_lookup_iff.mpr (List.mem_filter.mp hy).1
  have hname := h.paired.mount_unique d x.1 y.1 x.2 y.2 hx' hy' heq
  exact (s.fs.file d).dcache.nodupKeys.eq_of_fst_eq (List.mem_filter.mp hx).1 (List.mem_filter.mp hy).1
    hname

/-- The entries that list the inode number `i`. -/
theorem CaseFS.Sound.filter_getEntries (h : s.Sound sp) (hv : s.virtual d = some v) :
    (CaseDirectory.getEntries s d).filter (fun e => e.ino = some i) =
      ((s.fs.file v.real).entries.filter fun e => e.2 = i).map (fun e =>
        ⟨((s.layers.child d e.1).map ChildInfo.originalName).getD e.1, (s.fs.file e.2).kind, some e.2⟩) ++
      ((s.fs.mounts d).filter fun e => e.2 = i).map fun e => ⟨e.1, (s.fs.file e.2).kind, some e.2⟩ := by
  unfold CaseDirectory.getEntries
  rw [h.getEntries_eq hv, List.filter_append, List.filter_map, List.filter_map]
  simp only [Function.comp_def, Option.some.injEq]

/-- Everything that a directory holds is listed once. -/
theorem CaseFS.Sound.listed (h : s.Sound sp) (hv : s.virtual d = some v) (hf : s.Resident d f i) :
    (CaseDirectory.getEntries s d).filter (fun e => e.ino = some i) =
      [⟨sp f, (s.fs.file i).kind, some i⟩] := by
  have hreal : s.layers.real d = some v.real := Option.map_eq_some_iff.mpr ⟨v, hv, rfl⟩
  rw [h.filter_getEntries hv]
  cases hf with
  | @child n info i hchild hi =>
    have hmem := (h.paired.entries_iff d v.real n i hreal).mpr ⟨info, hchild, hi⟩
    have hnone : ((s.fs.mounts d).filter fun e => e.2 = i) = [] := by
      rw [List.filter_eq_nil_iff]
      rintro ⟨n', m⟩ hmem'
      obtain ⟨e, he, rfl⟩ := (h.paired.mounts_mem rfl).mp hmem'
      simp only [decide_eq_true_eq]
      intro heq
      exact h.paired.mount_unwrapped d n' e he info.child (heq ▸ hi)
    have hone : ((s.fs.file v.real).entries.filter fun e => e.2 = i) = [(n, i)] :=
      filter_image (h.paired.files_nodup v.real) hmem
    rw [hnone, hone]
    change [(⟨((s.layers.child d n).map ChildInfo.originalName).getD n, _, _⟩ : Dirent)] ++ [] = _
    rw [show s.layers.child d n = some info from hchild, (h.paired.child_name d n info hchild).2]
    rfl
  | @mount n e he =>
    have hnone : ((s.fs.file v.real).entries.filter fun x => x.2 = e.file) = [] := by
      rw [List.filter_eq_nil_iff]
      rintro ⟨n', r⟩ hmem'
      obtain ⟨i', _, hi'⟩ := (h.paired.entries_iff d v.real n' r hreal).mp hmem'
      simp only [decide_eq_true_eq]
      rintro rfl
      exact h.paired.mount_unwrapped d n e he i'.child hi'
    have hmem : (n, e.file) ∈ s.fs.mounts d := (h.paired.mounts_mem rfl).mpr ⟨e, he, rfl⟩
    have hone : ((s.fs.mounts d).filter fun x => x.2 = e.file) = [(n, e.file)] :=
      filter_image h.mounts_nodup hmem
    rw [hnone, hone, h.paired.mount_name d n e he]
    rfl

/-- Nothing else is listed. -/
theorem CaseFS.Sound.resident_of_listed (h : s.Sound sp) (hv : s.virtual d = some v) {e : Dirent}
    (he : e ∈ CaseDirectory.getEntries s d) : ∃ f i, s.Resident d f i ∧ e.ino = some i := by
  have hreal : s.layers.real d = some v.real := Option.map_eq_some_iff.mpr ⟨v, hv, rfl⟩
  unfold CaseDirectory.getEntries at he
  rw [h.getEntries_eq hv] at he
  rcases List.mem_append.mp he with he | he
  · obtain ⟨⟨n, r⟩, hmem, rfl⟩ := List.mem_map.mp he
    obtain ⟨info, hchild, hi⟩ := (h.paired.entries_iff d v.real n r hreal).mp hmem
    exact ⟨info.child, r, .child hchild hi, rfl⟩
  · obtain ⟨⟨n, m⟩, hmem, rfl⟩ := List.mem_map.mp he
    obtain ⟨e, hmount, rfl⟩ := (h.paired.mounts_mem rfl).mp hmem
    exact ⟨e.file, e.file, .mount hmount, rfl⟩

theorem CaseFS.Sound.once (h : s.Sound sp) {g j : FileId} (hf : s.Resident d f i)
    (hg : s.Resident d g j) : f = g ↔ i = j := by
  cases hf with
  | @child n info i hchild hi =>
    cases hg with
    | @child n' info' j hchild' hj =>
      refine ⟨?_, ?_⟩
      · intro heq
        rw [heq] at hi
        exact Option.some.inj (hi.symm.trans hj)
      · rintro rfl
        exact h.paired.real_inj _ _ _ hi hj
    | @mount n' e he =>
      refine ⟨?_, ?_⟩
      · intro heq
        exact absurd heq (h.paired.mount_not_child d n' e he d n info hchild)
      · rintro rfl
        exact absurd hi (h.paired.mount_unwrapped d n' e he info.child)
  | @mount n e he =>
    cases hg with
    | @child n' info' j hchild' hj =>
      refine ⟨?_, ?_⟩
      · intro heq
        exact absurd heq.symm (h.paired.mount_not_child d n e he d n' info' hchild')
      · rintro rfl
        exact absurd hj (h.paired.mount_unwrapped d n e he info'.child)
    | @mount n' e' he' => exact Iff.rfl

/-- In sound states whose mounts have names with one spelling, everything is in step. -/
theorem CaseFS.Sound.coherent (h : s.Sound sp) (hm : s.SoleMounts) : s.Coherent sp where
  resolves d a b hd hab := by
    obtain ⟨D, hD⟩ := CaseFS.real_of_virtual hd
    refine ⟨s.layers.find d a, CaseDirectory.getChild_apply h.paired hD a, ?_⟩
    rw [hm.find_eq hab]
    exact CaseDirectory.getChild_apply h.paired hD b
  bijective d v hv := by
    have hreal : s.layers.real d = some v.real := Option.map_eq_some_iff.mpr ⟨v, hv, rfl⟩
    have hkeys : (v.children.entries.map fun e => (e.1, s.real e.2.child)).Nodup := by
      refine List.Nodup.of_map Prod.fst ?_
      rw [List.map_map]
      exact v.children.nodupKeys
    have hnames : ((s.fs.file v.real).entries.map fun e => (e.1, some e.2)).Nodup := by
      refine List.Nodup.of_map Prod.fst ?_
      rw [List.map_map]
      exact h.paired.names_nodup v.real
    rw [List.perm_ext_iff_of_nodup hkeys hnames]
    rintro ⟨n, o⟩
    rw [List.mem_map, List.mem_map]
    refine ⟨?_, ?_⟩
    · rintro ⟨⟨n, info⟩, hmem, heq⟩
      cases heq
      have hchild : s.layers.child d n = some info := by
        rw [child_eq_lookup hv]
        exact AList.mem_lookup_iff.mpr hmem
      obtain ⟨_, r, _, hr, _⟩ := h.paired.child_wrapped d n info hchild
      exact ⟨(n, r), (h.paired.entries_iff d v.real n r hreal).mpr ⟨info, hchild, hr⟩,
        Prod.ext rfl (Eq.symm hr)⟩
    · rintro ⟨⟨n, r⟩, hmem, heq⟩
      cases heq
      obtain ⟨info, hchild, hr⟩ := (h.paired.entries_iff d v.real n r hreal).mp hmem
      refine ⟨⟨n, info⟩, ?_, Prod.ext rfl hr⟩
      rw [child_eq_lookup hv] at hchild
      exact AList.mem_lookup_iff.mp hchild
  files_nodup d v _ := h.paired.files_nodup v.real
  listed d f i hd hf := by
    obtain ⟨v, hv⟩ := Option.ne_none_iff_exists'.mp hd
    exact h.listed hv hf
  listed_resident d e hd he := by
    obtain ⟨v, hv⟩ := Option.ne_none_iff_exists'.mp hd
    exact h.resident_of_listed hv he
  once d f g i j hf hg := h.once hf hg

/-! ### Runs -/

theorem CaseFS.Sound.inEnv (h : s.Sound sp) (env : Env) : (s.inEnv env).Sound sp :=
  ⟨h.paired, h.within⟩

theorem NewChild.insert_eq (x : NewChild) (d : FileId) (name : Name) :
    ∃ insert, InsertsFile insert ∧
      x.insert d name = CaseDirectory.insertNew (IgnoreCaseDirectory.insertNew insert) d name := by
  cases x with
  | dataFile mode => exact ⟨_, insertsFile_dataFile mode, rfl⟩
  | directory mode => exact ⟨_, insertsFile_directory mode, rfl⟩
  | symlink target => exact ⟨_, insertsFile_symlink target, rfl⟩

/-- A new file is mounted under a name that was not found. -/
theorem CaseFS.Sound.mounted {s₁ : CaseFS} {m D : FileId} {name : Name} (h₁ : s₁.Sound sp) (h : s.Sound sp)
    (hm : s₁.layers.Unplaced m) (hsame : s.SameDirectories s₁) (hlt : m < s₁.fs.nextFile)
    (hd : s.real d = some D) (hfind : s.layers.find d name = none) :
    ∃ s' b, onFiles (Directory.mountChild d name m) s₁ = some (s', .ok b) ∧
      s'.Sound (Function.update sp m name) ∧
      ∀ d' n' e, s'.layers.tree.mount d' n' = some e → s.layers.tree.mount d' n' = some e ∨
        (s.layers.tree.parent d ≠ none ∧ d' = d ∧ n' = name) := by
  have hlt' := (h.within.real_lt d D hd).1
  have hd₁ : s₁.real d = some D := (hsame.real d hlt').trans hd
  obtain ⟨s', b, hmount, hs', hlayers⟩ := h₁.mountChild hm hlt hd₁ name fun hp => by
    rw [hsame.mount]
    exact (Layers.find_eq_none (by rwa [hsame.parent d hlt'] at hp) hfind).1
  refine ⟨s', b, hmount, hs', ?_⟩
  intro d' n' e he
  rw [hsame.parent d hlt'] at hlayers
  split at hlayers
  · rw [hlayers, hsame.mount] at he
    exact .inl he
  · next hp =>
      rw [hlayers] at he
      change (s₁.layers.tree.setMount d name (some ⟨.mount, m⟩)).mount d' n' = some e at he
      rw [Tree.setMount_mount, hsame.mount] at he
      split at he
      · next heq => exact .inr ⟨hp, heq⟩
      · exact .inl he

theorem CaseFS.Resident.inEnv (env : Env) (h : s.Resident d f i) : (s.inEnv env).Resident d f i := by
  cases h with
  | child hchild hi => exact .child hchild hi
  | mount he => exact .mount he

theorem CaseCall.Valid.inEnv {c : CaseCall} (h : c.Valid s) (env : Env) : c.Valid (s.inEnv env) := by
  cases c with
  | lookup d name => exact h
  | insert d name x => exact h
  | mount d name x => exact h
  | remove d name => exact h
  | move d name f =>
    obtain ⟨hd, p, i, hp, hf⟩ := h
    exact ⟨hd, p, i, hp, hf.inEnv env⟩

/-- What a mount call does: it fails, or it makes a new file and mounts it under a name
that was not found. -/
theorem CaseCall.exec_mount {D : FileId} (x : NewMount) (h : s.Sound sp) (hd : s.real d = some D)
    (name : Name) :
    (∃ e, (CaseCall.mount d name x).exec s = some (s, .error e)) ∨
      s.layers.find d name = none ∧ ∃ s₁ s' m b, (CaseCall.mount d name x).exec s = some (s', .ok (some m)) ∧
        onFiles (Directory.mountChild d name m) s₁ = some (s', .ok b) ∧ s₁.Sound sp ∧
        s₁.layers.Unplaced m ∧ s.SameDirectories s₁ ∧ m < s₁.fs.nextFile := by
  have hget := CaseDirectory.getChild_apply h.paired hd name
  cases hfind : s.layers.find d name with
  | some f =>
    refine .inl ⟨.EEXIST, (bind_of_ok hget).trans ?_⟩
    rw [hfind]
    rfl
  | none =>
    rcases x.create_sound h with hnone | ⟨s₁, m, hrun, hs₁, hunplaced, hsame, hlt⟩
    · refine .inl ⟨ Errno.EIO, (bind_of_ok hget).trans ?_⟩
      rw [hfind]
      exact bind_of_ok hnone
    obtain ⟨s', b, hmount, _⟩ := hs₁.mounted h hunplaced hsame hlt hd hfind
    refine .inr ⟨rfl, s₁, s', m, b, (bind_of_ok hget).trans ?_, hmount, hs₁, hunplaced, hsame, hlt⟩
    rw [hfind]
    exact (bind_of_ok hrun).trans (bind_of_ok hmount)

/-- The callers see to the rest: a valid call that moves no mount runs through and keeps the state
sound, and one that spares names as well keeps the mounts under names of one spelling. -/
theorem CaseCall.exec_sound (c : CaseCall) (h : s.Sound sp) (hvalid : c.Valid s) (hplain : c.MovesPlain s) :
    ∃ s' r, c.exec s = some (s', r) ∧ s'.Sound (c.spell r sp) ∧
      (s.SoleMounts → c.Spares s → s'.SoleMounts) := by
  have hget : ∀ {d D : FileId} {n : Name}, s.real d = some D →
      CaseDirectory.getChild d n s = some (s, .ok (s.layers.find d n)) :=
    fun hd => CaseDirectory.getChild_apply h.paired hd _
  cases c with
  | lookup d name =>
    obtain ⟨D, hD⟩ := CaseFS.real_of_virtual hvalid.1
    exact ⟨s, .ok none, bind_of_ok (hget hD), h, fun hm _ => hm⟩
  | insert d name x =>
    obtain ⟨D, hD⟩ := CaseFS.real_of_virtual hvalid.1
    cases hfind : s.layers.find d name with
    | some f =>
      refine ⟨s, .error .EEXIST, (bind_of_ok (hget hD)).trans ?_, h, fun hm _ => hm⟩
      rw [hfind]
      rfl
    | none =>
      obtain ⟨insert, hins, hinsert⟩ := x.insert_eq d name
      rcases CaseDirectory.insertNew_sound hins h hD name
        (fun hp => (Layers.find_eq_none hp hfind).2) with hnone | ⟨s', c, hrun, hs', hfrom⟩
      · refine ⟨s, .error Errno.EIO, (bind_of_ok (hget hD)).trans ?_, h, fun hm _ => hm⟩
        rw [hfind]
        exact bind_of_ok (hinsert ▸ hnone)
      · refine ⟨s', .ok (some c), (bind_of_ok (hget hD)).trans ?_, hs', fun hm _ => hm.of_from hfrom⟩
        rw [hfind]
        exact bind_of_ok (hinsert ▸ hrun)
  | mount d name x =>
    obtain ⟨D, hD⟩ := CaseFS.real_of_virtual hvalid.1
    rcases CaseCall.exec_mount x h hD name with
      ⟨e, herror⟩ | ⟨hfind, s₁, s', m, b, hrun, hmount, hs₁, hunplaced, hsame, hlt⟩
    · exact ⟨s, .error e, herror, h, fun hm _ => hm⟩
    obtain ⟨s'', b', hmount', hs', hfrom⟩ := hs₁.mounted h hunplaced hsame hlt hD hfind
    rw [hmount] at hmount'
    cases hmount'
    refine ⟨s', .ok (some m), hrun, hs', ?_⟩
    intro hm hspares d' n' e he
    rcases hfrom d' n' e he with hold | ⟨hp, rfl, rfl⟩
    · exact hm d' n' e hold
    · exact hspares.resolve_left hp
  | remove d name =>
    obtain ⟨D, hD⟩ := CaseFS.real_of_virtual hvalid.1
    by_cases hdots : name = dot ∨ name = dotDot
    · exact ⟨s, .error .EINVAL, (failIf_bind_apply s).trans (if_pos hdots), h, fun hm _ => hm⟩
    obtain ⟨hdot, hdotdot⟩ := not_or.mp hdots
    cases hfind : s.layers.find d name with
    | none =>
      refine ⟨s, .error .ENOENT, ?_, h, fun hm _ => hm⟩
      refine ((failIf_bind_apply s).trans (if_neg hdots)).trans ((bind_of_ok (hget hD)).trans ?_)
      rw [hfind]
      rfl
    | some f =>
      obtain ⟨s', hrun, hs', hfrom⟩ := CaseDirectory.removeChild_sound h hD hdot hdotdot
        (by rw [hfind]; exact Option.some_ne_none f)
      refine ⟨s', .ok none, ?_, hs', fun hm _ => hm.of_from hfrom⟩
      refine ((failIf_bind_apply s).trans (if_neg hdots)).trans ((bind_of_ok (hget hD)).trans ?_)
      rw [hfind]
      exact bind_of_ok hrun
  | move d name f =>
    obtain ⟨hd, p, i, hp, hf⟩ := hvalid
    obtain ⟨D, hD⟩ := CaseFS.real_of_virtual hd.1
    rcases hplain with hunlinked | ⟨hmounted, hkind⟩
    · have hrefused : CaseDirectory.insertMove d name f s = some (s, .error .EPERM) := if_pos hunlinked
      exact ⟨s, .error .EPERM, bind_of_error hrefused, h, fun hm _ => hm⟩
    cases hf with
    | mount he => exact absurd ⟨_, _, _, he, rfl⟩ hmounted
    | child hchild _ =>
      rcases CaseDirectory.insertMove_sound h hD name hchild hkind with
        hrefused | ⟨s', hrun, hs', hfrom⟩
      · exact ⟨s, .error .EPERM, bind_of_error hrefused, h, fun hm _ => hm⟩
      · exact ⟨s', .ok _, bind_of_ok hrun, hs', fun hm _ => hm.of_from hfrom⟩

theorem CaseFS.outside_sound (env : Env) (sp : FileId → Name) :
    (CaseFS.outside env).Sound sp ∧ (CaseFS.outside env).SoleMounts := by
  let t := (CaseFS.outside env).layers.tree
  have htree : ∀ f, t.entries f = [] ∧ (∀ n, t.mount f n = none) ∧ (1 ≤ f → t.parent f = none) := by
    intro f
    have hempty : ∀ n, emptyDCache.lookup n = none := fun n => AList.lookup_empty n
    have hadd := FS.tree_addFile (FS.blank env) (x := newDirectory none 0o777 env.now) rfl rfl rfl rfl rfl hempty
    have ht : t = ((FS.blank env).addFile (newDirectory none 0o777 env.now)).tree.setParent 0 (some 0) :=
      FS.tree_setParent _ _ _
    rw [ht, hadd]
    refine ⟨rfl, hempty, fun hf => ?_⟩
    rw [Tree.setParent_parent, if_neg (Nat.pos_iff_ne_zero.mp hf)]
    rfl
  have hmount : ∀ {d n e}, t.mount d n = some e → False := by
    intro d n e he
    rw [(htree d).2.1 n] at he
    cases he
  refine ⟨⟨?_, ?_⟩, fun d n e he => (hmount he).elim⟩
  · refine {
      real_plain := fun f r hr => (by cases hr), real_inj := fun f g r hr => (by cases hr)
      names_nodup := ?_, files_nodup := ?_, entries_real := ?_
      entries_iff := fun d D n r hd => (by cases hd), child_wrapped := fun d n i hi => (by cases hi)
      child_parent := fun d n i hi => (by cases hi), child_name := fun d n i hi => (by cases hi)
      mount_kind := fun d n e he => (hmount he).elim, mount_parent := fun d n e he => (hmount he).elim
      mount_unique := fun d n n' e e' he => (hmount he).elim
      mount_unwrapped := fun d n e he => (hmount he).elim
      mount_not_child := fun d n e he => (hmount he).elim
      mount_name := fun d n e he => (hmount he).elim, real_mount := fun d D n hd => (by cases hd) }
    · intro D
      rw [show (CaseFS.outside env).layers.tree.entries D = [] from (htree D).1]
      exact List.nodup_nil
    · intro D
      rw [show (CaseFS.outside env).layers.tree.entries D = [] from (htree D).1]
      exact List.nodup_nil
    · intro D n r hmem
      rw [show (CaseFS.outside env).layers.tree.entries D = [] from (htree D).1] at hmem
      cases hmem
  · exact {
      real_lt := fun f r hr => (by cases hr), mount_lt := fun d n e he => (hmount he).elim
      blank_parent := fun f hf => (htree f).2.2 hf, blank_entries := fun f _ => (htree f).1
      blank_mount := fun f n _ => (htree f).2.1 n }

theorem CaseFS.start_sound (wrapped : Nat) (backend : Backend) (mode : Nat) (env : Env) (atRoot : Bool) :
    (CaseFS.start wrapped backend mode env atRoot).Sound (fun _ => []) ∧
      (CaseFS.start wrapped backend mode env atRoot).SoleMounts := by
  obtain ⟨h, hm⟩ := CaseFS.outside_sound env fun _ => []
  unfold CaseFS.start
  rcases (NewMount.ignoreCaseDirectory wrapped backend mode).create_sound h with
    hnone | ⟨s₁, d, hrun, h₁, hd, hsame, hlt⟩
  · rw [hnone]
    exact ⟨h, hm⟩
  · rw [hrun]
    have hlayers := s₁.layers_modifyFS (g := fun fs => fs.setParent d (some (if atRoot then d else 0)))
      (u := fun t => t.setParent d (some (if atRoot then d else 0))) (FS.tree_setParent _ _ _)
    refine ⟨⟨?_, ?_⟩, ?_⟩
    · rw [hlayers]
      exact h₁.paired.setParent hd.noChild hd.noEntry hd.noMount
    · rw [hlayers]
      exact h₁.within.setParent hlt
    · intro d' n' e he
      rw [hlayers] at he
      change s₁.layers.tree.mount d' n' = some e at he
      rw [hsame.mount] at he
      exact hm d' n' e he

theorem CaseReached.sound (h : CaseReached CaseCall.Spares s sp) : s.Sound sp ∧ s.SoleMounts := by
  induction h with
  | start wrapped backend mode env atRoot => exact CaseFS.start_sound wrapped backend mode env atRoot
  | @call s sp _ c env s' r hvalid hspares hr ih =>
    obtain ⟨s'', r'', hrun, hs'', hm''⟩ :=
      c.exec_sound (ih.1.inEnv env) (hvalid.inEnv env) hspares.movesPlain
    rw [hr] at hrun
    cases hrun
    exact ⟨hs'', hm'' ih.2 hspares⟩

/-- Names under which something is mounted do not matter for the maps and the entries. -/
theorem CaseReached.sound_of_movesPlain (h : CaseReached CaseCall.MovesPlain s sp) : s.Sound sp := by
  induction h with
  | start wrapped backend mode env atRoot => exact (CaseFS.start_sound wrapped backend mode env atRoot).1
  | @call s sp _ c env s' r hvalid hplain hr ih =>
    obtain ⟨s'', r'', hrun, hs'', _⟩ := c.exec_sound (ih.inEnv env) (hvalid.inEnv env) hplain
    rw [hr] at hrun
    cases hrun
    exact hs''

/-! ### Calls that do not spare names and mounts -/

/-- A mount under a name with another spelling is not found under that spelling. -/
theorem CaseFS.SoleMounts.mount_splits (hm : s.SoleMounts) (h : s.Sound sp) {name : Name} {x : NewMount}
    (hd : s.virtual d ≠ none) (hp : s.layers.tree.parent d ≠ none) (hname : ¬ SoleSpelling name)
    (hr : (CaseCall.mount d name x).exec s = some (s', .ok (some f))) :
    ¬ s'.Coherent (Function.update sp f name) := by
  intro hcoherent
  obtain ⟨D, hD⟩ := CaseFS.real_of_virtual hd
  obtain ⟨b, hb⟩ := not_forall.mp hname
  obtain ⟨hb, hne⟩ := Classical.not_imp.mp hb
  rcases CaseCall.exec_mount x h hD name with
    ⟨e, herror⟩ | ⟨hfind, s₁, s'', m, _, hrun, hmount, hs₁, hunplaced, hsame, hlt⟩
  · rw [herror] at hr
    cases hr
  rw [hrun] at hr
  cases hr
  have hlt' := (h.within.real_lt d D hD).1
  have hp₁ : s₁.layers.tree.parent d ≠ none := by rwa [hsame.parent d hlt']
  obtain ⟨hfree, hchild⟩ := Layers.find_eq_none hp hfind
  obtain ⟨s'', _, hmount', hs', hlayers⟩ := hs₁.mountChild hunplaced hlt
    ((hsame.real d hlt').trans hD) name fun _ => by rw [hsame.mount]; exact hfree
  rw [hmount] at hmount'
  cases hmount'
  rw [if_neg hp₁] at hlayers
  have hD' : s'.real d = some D := by
    change s'.layers.real d = _
    rw [hlayers]
    exact (hsame.real d hlt').trans hD
  have hd' : s'.virtual d ≠ none := by
    intro hnone
    rw [CaseFS.real, hnone] at hD'
    cases hD'
  obtain ⟨g, hname', hb'⟩ := hcoherent.resolves d name b hd' hb.symm
  rw [CaseDirectory.getChild_apply hs'.paired hD'] at hname' hb'
  -- The spelling of the mount finds it, and the other one finds nothing.
  have hname_ne : name ≠ dot ∧ name ≠ dotDot :=
    ⟨fun heq => hname (heq ▸ soleSpelling_dot), fun heq => hname (heq ▸ soleSpelling_dotDot)⟩
  have hb_ne : b ≠ dot ∧ b ≠ dotDot := by
    refine ⟨?_, ?_⟩
    · rintro rfl
      exact hname_ne.1 (soleSpelling_dot name hb.symm)
    · rintro rfl
      exact hname_ne.2 (soleSpelling_dotDot name hb.symm)
  obtain ⟨p, hp'⟩ : ∃ p, s'.layers.tree.parent d = some p := by
    rw [hlayers]
    change ∃ p, (s₁.layers.tree.setParent f (some d)).parent d = some p
    rw [Tree.setParent_parent]
    split
    · exact ⟨d, rfl⟩
    · exact Option.ne_none_iff_exists'.mp hp₁
  have hmounts : ∀ n, s'.layers.tree.mount d n =
      if n = name then some ⟨.mount, f⟩ else s.layers.tree.mount d n := by
    intro n
    rw [hlayers]
    change (s₁.layers.tree.setMount d name (some ⟨.mount, f⟩)).mount d n = _
    rw [Tree.setMount_mount, hsame.mount]
    simp
  have hfound : s'.layers.find d name = some f := by
    unfold Layers.find
    simp [hp', hname_ne, hmounts]
  have hlost : s'.layers.find d b = none := by
    have hnone : s.layers.tree.mount d b = none := by
      cases he : s.layers.tree.mount d b with
      | none => rfl
      | some e => exact absurd (hm d b e he name hb.symm).symm hne
    have hchild' : s'.layers.child d (normalize b) = none := by
      rw [hb, hlayers]
      exact (congrFun (congrFun hsame.child d) (normalize name)).trans hchild
    unfold Layers.find
    simp [hp', hb_ne, hmounts, hne, hnone, hchild']
  rw [hfound] at hname'
  rw [hlost] at hb'
  cases hname'
  cases hb'

section Returning

variable {α : Type} {a : α} {v : Virtual} {r : FileId}

theorem thisDirectory_ok (h : thisDirectory d s = some (s', .ok v)) : s' = s ∧ s.virtual d = some v := by
  unfold thisDirectory at h
  cases hv : s.virtual d with
  | none => simp [hv] at h
  | some w =>
    simp only [hv, Option.some.injEq, Prod.mk.injEq, Except.ok.injEq] at h
    obtain ⟨rfl, rfl⟩ := h
    exact ⟨rfl, rfl⟩

theorem devirtualize_ok (h : devirtualize f s = some (s', .ok r)) :
    s' = s ∧ (s.fs.file f).kind ≠ .symlink ∧ s.real f = some r := by
  unfold devirtualize at h
  cases hv : s.virtual f with
  | none => cases hk : (s.fs.file f).kind <;> simp [hk, hv] at h
  | some w =>
    have hreal : s.real f = some w.real := Option.map_eq_some_iff.mpr ⟨w, hv, rfl⟩
    cases hk : (s.fs.file f).kind with
    | symlink => simp [hk] at h
    | dataFile =>
      simp only [hk, hv, Option.some.injEq, Prod.mk.injEq, Except.ok.injEq] at h
      obtain ⟨rfl, rfl⟩ := h
      exact ⟨rfl, by decide, hreal⟩
    | directory =>
      simp only [hk, hv, Option.some.injEq, Prod.mk.injEq, Except.ok.injEq] at h
      obtain ⟨rfl, rfl⟩ := h
      exact ⟨rfl, by decide, hreal⟩

theorem onFiles_ok {m : Sys α} (h : onFiles m s = some (s', .ok a)) : s'.virtual = s.virtual := by
  unfold onFiles at h
  cases hm : m s.fs with
  | none => simp [hm] at h
  | some p =>
    simp only [hm, Option.some.injEq, Prod.mk.injEq] at h
    rw [← h.1]

theorem real_of_virtual_eq (h : s'.virtual = s.virtual) : s'.real = s.real := by
  unfold CaseFS.real
  rw [h]

theorem IgnoreCaseDirectory.eraseChild_ok {p : FileId}
    (h : IgnoreCaseDirectory.eraseChild p f s = some (s', .ok ())) : s'.real = s.real := by
  obtain ⟨v, s₁, hthis, hrest⟩ := bind_ok_iff.mp h
  obtain ⟨rfl, _⟩ := thisDirectory_ok hthis
  cases hfirst : v.children.entries.find? fun e => e.2.child = f with
  | none =>
    rw [hfirst] at hrest
    cases hrest
    rfl
  | some e =>
    rw [hfirst] at hrest
    cases hrest
    exact CaseFS.real_modifyChildren _ _

/-- What a move that succeeds has moved, and what it leaves in the map. -/
theorem IgnoreCaseDirectory.insertMove_ok {name : Name}
    (h : IgnoreCaseDirectory.insertMove d name f s = some (s', .ok ())) :
    s'.layers.child d (normalize name) = some ⟨name, f⟩ ∧ s'.real = s.real ∧
      (s.fs.file f).kind ≠ .symlink ∧ ∃ r, s.real f = some r := by
  obtain ⟨v, s₀, hthis, h₀⟩ := bind_ok_iff.mp h
  obtain ⟨rfl, _⟩ := thisDirectory_ok hthis
  obtain ⟨r, s₁, hdevirtualize, h₁⟩ := bind_ok_iff.mp h₀
  obtain ⟨rfl, hkind, hr⟩ := devirtualize_ok hdevirtualize
  obtain ⟨_, s₂, hmove, h₂⟩ := bind_ok_iff.mp h₁
  obtain ⟨parent, s₃, hparent, h₃⟩ := bind_ok_iff.mp h₂
  have hreal₃ := real_of_virtual_eq ((onFiles_ok hparent).trans (onFiles_ok hmove))
  cases parent with
  | none => cases h₃
  | some p =>
    obtain ⟨_, s₄, herase, h₄⟩ := bind_ok_iff.mp h₃
    obtain ⟨u, s₅, hthis', h₅⟩ := bind_ok_iff.mp h₄
    obtain ⟨rfl, hu⟩ := thisDirectory_ok hthis'
    have hreal₅ := (IgnoreCaseDirectory.eraseChild_ok herase).trans hreal₃
    have hd : s₅.real d = some u.real := Option.map_eq_some_iff.mpr ⟨u, hu, rfl⟩
    have hlast : ∀ s₆ : CaseFS, s₆.virtual = s₅.virtual →
        s' = (s₆.modifyChildren d fun m => m.insert (normalize name) ⟨name, f⟩) →
        s'.layers.child d (normalize name) = some ⟨name, f⟩ ∧ s'.real = s₅.real := by
      rintro s₆ hvirtual rfl
      have hreal₆ := real_of_virtual_eq hvirtual
      refine ⟨?_, (s₆.real_modifyChildren _).trans hreal₆⟩
      rw [s₆.layers_insertChild ((congrFun hreal₆ d).trans hd), Layers.setChild_child,
        if_pos ⟨rfl, rfl⟩]
    cases hlook : u.children.lookup (normalize name) with
    | none =>
      rw [hlook] at h₅
      cases h₅
      obtain ⟨hchild, hreal⟩ := hlast s₅ rfl rfl
      exact ⟨hchild, hreal.trans hreal₅, hkind, r, hr⟩
    | some o =>
      rw [hlook] at h₅
      cases h₅
      obtain ⟨hchild, hreal⟩ := hlast (s₅.modifyFS fun fs => fs.setParent o.child none) rfl rfl
      exact ⟨hchild, hreal.trans hreal₅, hkind, r, hr⟩

end Returning

theorem CaseDirectory.insertMove_ok {name : Name}
    (h : CaseDirectory.insertMove d name f s = some (s', .ok ())) : ∃ p s₁,
      (s.fs.file f).parent = some p ∧ IgnoreCaseDirectory.insertMove d name f s = some (s₁, .ok ()) ∧
        s' = s₁.modifyFS fun fs =>
          let moved := match s.fs.findInDCache p f with
            | none => fs
            | some (oldName, entry) => fs.moveInDCache p oldName entry d name
          ((moved.setParent f (some d)).updateMTime p).updateMTime d := by
  unfold CaseDirectory.insertMove at h
  by_cases hd : (s.fs.file d).parent = none
  · rw [if_pos hd] at h
    cases h
  rw [if_neg hd] at h
  cases hp : (s.fs.file f).parent with
  | none =>
    rw [hp] at h
    cases h
  | some p =>
    rw [hp] at h
    obtain ⟨_, s₁, hback, hlast⟩ := bind_ok_iff.mp h
    cases hlast
    exact ⟨p, s₁, rfl, hback, rfl⟩

/-- A mount that is moved is listed twice. -/
theorem CaseFS.Sound.move_doubles (h : s.Sound sp) {name : Name} (hf : s.Mounted f)
    (hr : CaseDirectory.insertMove d name f s = some (s', .ok ())) {sp' : FileId → Name} :
    ¬ s'.Coherent sp' := by
  intro hcoherent
  obtain ⟨p, a, e, he, rfl⟩ := hf
  obtain ⟨p', s₁, hp', hback, rfl⟩ := CaseDirectory.insertMove_ok hr
  obtain rfl : p' = p := Option.some.inj (hp'.symm.trans (h.paired.mount_parent p a e he))
  obtain ⟨hchild, hreal, _, r, hr'⟩ := IgnoreCaseDirectory.insertMove_ok hback
  cases hfind : s.fs.findInDCache p' e.file with
  | none => exact FS.findInDCache_none hfind he rfl
  | some x =>
    obtain ⟨a', e'⟩ := x
    have hfile := (FS.findInDCache_some hfind).2
    rw [hfind] at hcoherent
    -- The file is in the map as well as in the dcache.
    have hmount : (s₁.fs.moveInDCache p' a' e' d name).tree.mount d name = some e' := by
      rw [(s₁.fs.moveInDCache_spec p' a' e' d name).2.2]
      unfold Tree.moveMount
      split
      · rw [Tree.setMount_mount, if_pos ⟨rfl, rfl⟩]
      · rw [Tree.setMount_mount, if_pos ⟨rfl, rfl⟩]
    let s₂ := s₁.modifyFS fun fs => (((fs.moveInDCache p' a' e' d name).setParent e.file
      (some d)).updateMTime p').updateMTime d
    have hcached : s₂.fs.tree.mount d name = some e' := by
      rw [show s₂.fs.tree = (s₁.fs.moveInDCache p' a' e' d name).tree.setParent e.file (some d) by
        simp only [s₂, CaseFS.modifyFS]
        rw [FS.tree_updateMTime, FS.tree_updateMTime, FS.tree_setParent]]
      exact hmount
    have hr₂ : s₂.real e.file = some r := (congrFun hreal e.file).trans hr'
    have hfirst : s₂.Resident d e.file r := CaseFS.Resident.child (s := s₂) hchild hr₂
    have hsecond : s₂.Resident d e'.file e'.file := CaseFS.Resident.mount (s := s₂) hcached
    rw [hfile] at hsecond
    have heq := (hcoherent.once d e.file e.file r e.file hfirst hsecond).mp rfl
    have hplain := h.paired.real_plain e.file r hr'
    rw [heq, show s.layers.real e.file = some r from hr'] at hplain
    cases hplain

end Keeping

end WasmFS
