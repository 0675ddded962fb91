-- SUMMARY: Every reachable state is sound; the use counts, opens and closes of the descriptor table over whole runs.
import Emscripten.WasmFS.Steps

/-!
# Runs

The initial state is sound, and each kind of step keeps a state sound.
-/

namespace WasmFS

open Prog

/-- The invariant of every run. -/
structure FS.Sound (s : FS) : Prop where
  tree : s.TreeSound
  accounts : s.Accounted nothing

/-! ## The initial state -/

variable {n : Name} {d : FileId}

section Init

variable (root : Nat) (env : Env)

theorem init_entries (d : FileId) : (FS.init root env).tree.entries d =
    if d = 3 then [("dev".toList, 4), ("tmp".toList, 8)] else [] :=
  match d with
  | 0 | 1 | 2 | 3 | 4 | 5 | 6 | 7 | 8 => rfl
  | _ + 9 => rfl

theorem init_parent (f : FileId) : (FS.init root env).tree.parent f =
    if f < 9 then (if f = 3 ∨ f = 4 ∨ f = 8 then some 3 else some 4) else none :=
  match f with
  | 0 | 1 | 2 | 3 | 4 | 5 | 6 | 7 | 8 => rfl
  | _ + 9 => rfl

/-- What is mounted in "dev". -/
def devices : List (Name × FileId) :=
  [("urandom".toList, 7), ("random".toList, 6), ("stderr".toList, 2), ("stdout".toList, 1),
    ("stdin".toList, 0), ("null".toList, 5)]

theorem init_dcache : ((FS.init root env).file 4).dcache.entries =
    devices.map fun p => (⟨p.1, ⟨.mount, p.2⟩⟩ : Sigma fun _ : Name => DCacheEntry) :=
  rfl

theorem init_dcache_of_ne (hd : d ≠ 4) : ((FS.init root env).file d).dcache = emptyDCache :=
  match d with
  | 0 | 1 | 2 | 3 | 5 | 6 | 7 | 8 => rfl
  | 4 => absurd rfl hd
  | _ + 9 => rfl

theorem init_mount {e : DCacheEntry} (h : (FS.init root env).tree.mount d n = some e) :
    d = 4 ∧ e.kind = .mount ∧ (n, e.file) ∈ devices := by
  have hd : d = 4 := by
    by_contra hd
    change ((FS.init root env).file d).dcache.lookup n = some e at h
    rw [init_dcache_of_ne root env hd] at h
    exact absurd h (by rw [emptyDCache, AList.lookup_empty]; simp)
  subst hd
  have hmem : (⟨n, e⟩ : Sigma fun _ : Name => DCacheEntry) ∈
      ((FS.init root env).file 4).dcache.entries := AList.mem_lookup_iff.mp h
  rw [init_dcache] at hmem
  obtain ⟨p, hp, heq⟩ := List.mem_map.mp hmem
  cases heq
  exact ⟨rfl, rfl, hp⟩

/-- The device files are files of "dev", none of them a directory or the root. -/
theorem devices_parent : ∀ p ∈ devices, (FS.init root env).tree.parent p.2 = some 4 ∧ p.2 ≠ 3 ∧
    p.2 < 9 := by
  intro p hp
  rw [init_parent]
  have hall : ∀ p ∈ devices, p.2 < 9 ∧ ¬ (p.2 = 3 ∨ p.2 = 4 ∨ p.2 = 8) := by decide
  obtain ⟨hlt, hne⟩ := hall p hp
  rw [if_pos hlt, if_neg hne]
  exact ⟨rfl, fun h => hne (.inl h), hlt⟩

theorem init_mem_entries {f : FileId} (h : (n, f) ∈ (FS.init root env).tree.entries d) :
    d = 3 ∧ (f = 4 ∨ f = 8) := by
  rw [init_entries] at h
  split at h
  · next hd =>
      have hall : ∀ p ∈ [("dev".toList, 4), ("tmp".toList, 8)], p.2 = 4 ∨ p.2 = 8 := by decide
      exact ⟨hd, hall _ h⟩
  · exact absurd h List.not_mem_nil

theorem linked_init : (FS.init root env).tree.Linked where
  names_nodup d := by
    rw [init_entries]
    split
    · decide
    · exact List.nodup_nil
  files_nodup d := by
    rw [init_entries]
    split
    · decide
    · exact List.nodup_nil
  entry_parent d n f h := by
    obtain ⟨rfl, hf⟩ := init_mem_entries root env h
    rw [init_parent]
    rcases hf with rfl | rfl
    · rfl
    · rfl
  mount_kind d n e h := (init_mount root env h).2.1
  mount_parent d n e h := by
    obtain ⟨rfl, _, hdev⟩ := init_mount root env h
    exact .inl (devices_parent root env _ hdev).1
  mount_unique d d' n n' e e' h h' hfile := by
    obtain ⟨rfl, _, hdev⟩ := init_mount root env h
    obtain ⟨rfl, _, hdev'⟩ := init_mount root env h'
    have hnodup : (devices.map Prod.snd).Nodup := by decide
    exact ⟨rfl, congrArg Prod.fst (List.inj_on_of_nodup_map hnodup hdev hdev' hfile)⟩
  entry_mount d n n' e h h' := by
    obtain ⟨rfl, _⟩ := init_mem_entries root env h
    exact absurd (init_mount root env h').1 (by decide)
  root_parent := rfl
  only_root f h := by
    rw [init_parent] at h
    split at h
    · split at h
      · exact (Option.some.inj h).symm
      · next hne => exact absurd (.inr (.inl (Option.some.inj h).symm)) hne
    · cases h
  root_entry d n h := by
    rcases (init_mem_entries root env h).2 with h | h
    · exact absurd h (by decide : (3 : Nat) ≠ 4)
    · exact absurd h (by decide : (3 : Nat) ≠ 8)
  root_mount d n e h := (devices_parent root env _ (init_mount root env h).2.2).2.1

theorem within_init : (FS.init root env).tree.Within 9 where
  root_lt := (by decide : (3 : Nat) < 9)
  parent_lt f p h := by
    rw [init_parent] at h
    split at h
    · split at h
      · cases h; decide
      · cases h; decide
    · cases h
  mount_lt d n e h := (devices_parent root env _ (init_mount root env h).2.2).2.2
  blank_parent f hf := by
    rw [init_parent, if_neg (Nat.not_lt.mpr hf)]
  blank_entries f hf := by
    rw [init_entries, if_neg]
    rintro rfl
    exact absurd hf (by decide)
  blank_mount f n hf := by
    cases hm : (FS.init root env).tree.mount f n with
    | none => rfl
    | some e =>
      obtain ⟨rfl, _⟩ := init_mount root env hm
      exact absurd hf (by decide)

theorem treeSound_init : (FS.init root env).TreeSound where
  linked := linked_init root env
  within := within_init root env
  leaf f hf := by
    refine ⟨?_, ?_⟩
    · rw [init_entries, if_neg]
      rintro rfl
      exact hf rfl
    · intro n
      cases hm : (FS.init root env).tree.mount f n with
      | none => rfl
      | some e =>
        obtain ⟨rfl, _⟩ := init_mount root env hm
        exact absurd rfl hf
  root_dir := rfl
  cwd_dir := ⟨(by decide : (3 : Nat) < 9), rfl⟩

theorem accounted_init : (FS.init root env).Accounted nothing where
  table_lt x h := by
    have hall : ∀ o ∈ [some 0, some 1, some 2], ∀ x, o = some x → x < 3 := by decide
    exact hall _ h x rfl
  pending_lt _ h := h.elim
  pending_out _ h := h.elim
  file_lt x hx :=
    match x, hx with
    | 0, _ => (by decide : (0 : Nat) < 9)
    | 1, _ => (by decide : (1 : Nat) < 9)
    | 2, _ => (by decide : (2 : Nat) < 9)
    | _ + 3, hx => absurd hx (by simp [FS.init])
  uses x hx :=
    match x, hx with
    | 0, _ | 1, _ | 2, _ => rfl
    | _ + 3, hx => absurd hx (by simp [FS.init])
  opened x :=
    match x with
    | 0 => by rw [if_pos ⟨(by decide : (0 : Nat) < 3), rfl⟩]; rfl
    | 1 => by rw [if_pos ⟨(by decide : (1 : Nat) < 3), rfl⟩]; rfl
    | 2 => by rw [if_pos ⟨(by decide : (2 : Nat) < 3), rfl⟩]; rfl
    | x + 3 => by
      rw [if_neg (fun h => absurd h.1 (by simp [FS.init]))]
      simp [FS.init]
  closed_zero x _ := by simp [FS.init]
  closed_one x hx _ hout _ :=
    match x, hx with
    | 0, _ => absurd (by simp [FS.init]) hout
    | 1, _ => absurd (by simp [FS.init]) hout
    | 2, _ => absurd (by simp [FS.init]) hout
    | _ + 3, hx => absurd hx (by simp [FS.init])

theorem sound_init : (FS.init root env).Sound := ⟨treeSound_init root env, accounted_init root env⟩

end Init

/-! ## Steps -/

section Steps

variable {s s' : FS}

theorem FS.Sound.slots (h : s.Sound) {K : FileId → Prop}
    (hK : ∀ o, some o ∈ s.fileTable → K (s.openFile o).file) : Slots K s.getEntry nothing s :=
  ⟨h.accounts, fun _ => rfl, fun x hx => hx.elim (hK x) False.elim⟩

/-- The existing files, as the set that resolutions stay in. -/
theorem FS.Sound.existing (h : s.Sound) : s.Closed fun f => f < s.nextFile :=
  h.tree.closed h.accounts.tableWithin

theorem FS.Sound.call (h : s.Sound) {c : Call} {r : Except Errno Unit}
    (hr : c.exec s = some (s', r)) : s'.Sound ∧ c.Effect s s' := by
  have hslots : Slots (s.OrNew fun f => f < s.nextFile) s.getEntry nothing s :=
    h.slots fun o ho => .inl (h.existing.opened o ho)
  obtain ⟨⟨htree, heffect⟩, _, hslots'⟩ := exec_after h.tree h.existing (fun _ => id) hslots hr
  exact ⟨⟨htree, hslots'.accounts⟩, heffect⟩

theorem FS.SameNames.keepsTree (h : s.SameNames s') : s.KeepsTree s' where
  nextFile := Nat.le_of_eq h.nextFile.symm
  kind f _ := h.kind f
  backend f _ := h.backend f
  tree := Tree.ext h.parent h.entries (fun d n => congrArg (fun m => m.lookup n) (h.dcache d))
    h.rootDirectory
  cwd := h.cwd

theorem FS.SameNames.keepsTable (h : s.SameNames s') : s.KeepsTable s' where
  nextFile := Nat.le_of_eq h.nextFile.symm
  kind f _ := h.kind f
  backend f _ := h.backend f
  fileTable := h.fileTable
  openedFile := h.openedFile
  uses := h.uses
  nextOpen := h.nextOpen
  log := h.log

/-! ### Destruction -/

variable {d : FileId}

theorem FS.expire_mount (s : FS) (d f : FileId) (n : Name) : (s.expire d).tree.mount f n =
    if f = d then none else s.tree.mount f n := by
  simp only [tree, expire]
  split
  · exact AList.lookup_empty n
  · rfl

theorem FS.mem_expire_entries {D f : FileId} (h : (n, f) ∈ (s.expire d).tree.entries D) :
    D ≠ d ∧ (n, f) ∈ s.tree.entries D := by
  change (n, f) ∈ (if D = d then [] else s.tree.entries D) at h
  split at h
  · exact absurd h List.not_mem_nil
  · next hne => exact ⟨hne, h⟩

theorem FS.of_expire_mount {D : FileId} {e : DCacheEntry} (h : (s.expire d).tree.mount D n = some e) :
    D ≠ d ∧ s.tree.mount D n = some e := by
  rw [expire_mount] at h
  split at h
  · cases h
  · next hne => exact ⟨hne, h⟩

theorem FS.expire_parent (s : FS) (d f : FileId) : (s.expire d).tree.parent f =
    if s.tree.parent f = some d then none else s.tree.parent f := rfl

theorem FS.expire_parent_of_ne {f p : FileId} (h : s.tree.parent f = some p) (hne : p ≠ d) :
    (s.expire d).tree.parent f = some p := by
  rw [expire_parent, if_neg (fun heq => hne (Option.some.inj (h.symm.trans heq))), h]

theorem FS.of_expire_parent {f p : FileId} (h : (s.expire d).tree.parent f = some p) :
    s.tree.parent f = some p := by
  rw [expire_parent] at h
  split at h
  · cases h
  · exact h

theorem FS.TreeSound.linked_expire (h : s.TreeSound) (hd : d ≠ s.rootDirectory) :
    (s.expire d).tree.Linked where
  names_nodup D := by
    change ((if D = d then [] else s.tree.entries D).map Prod.fst).Nodup
    split
    · exact List.nodup_nil
    · exact h.linked.names_nodup D
  files_nodup D := by
    change ((if D = d then [] else s.tree.entries D).map Prod.snd).Nodup
    split
    · exact List.nodup_nil
    · exact h.linked.files_nodup D
  entry_parent D n f hf := by
    obtain ⟨hne, hf⟩ := FS.mem_expire_entries hf
    exact FS.expire_parent_of_ne (h.linked.entry_parent D n f hf) hne
  mount_kind D n e he := h.linked.mount_kind D n e (FS.of_expire_mount he).2
  mount_parent D n e he := by
    obtain ⟨hne, he⟩ := FS.of_expire_mount he
    rcases h.linked.mount_parent D n e he with hp | hp
    · exact .inl (FS.expire_parent_of_ne hp hne)
    · exact .inr (by rw [FS.expire_parent, hp]; simp)
  mount_unique D D' n n' e e' he he' :=
    h.linked.mount_unique D D' n n' e e' (FS.of_expire_mount he).2 (FS.of_expire_mount he').2
  entry_mount D n n' e hf he :=
    h.linked.entry_mount D n n' e (FS.mem_expire_entries hf).2 (FS.of_expire_mount he).2
  root_parent := FS.expire_parent_of_ne h.linked.root_parent hd.symm
  only_root f hf := h.linked.only_root f (FS.of_expire_parent hf)
  root_entry D n hf := h.linked.root_entry D n (FS.mem_expire_entries hf).2
  root_mount D n e he := h.linked.root_mount D n e (FS.of_expire_mount he).2

theorem FS.expire_keepsTable (s : FS) (d : FileId) : s.KeepsTable (s.expire d) :=
  ⟨Nat.le_refl _, fun _ _ => rfl, fun _ _ => rfl, rfl, fun _ => rfl, fun _ => rfl, rfl, rfl⟩

theorem FS.TreeSound.expire (h : s.TreeSound) (hd : d ≠ s.rootDirectory) :
    (s.expire d).TreeSound where
  linked := h.linked_expire hd
  within := {
    root_lt := h.within.root_lt
    parent_lt := fun f p hp => h.within.parent_lt f p (FS.of_expire_parent hp)
    mount_lt := fun D n e he => h.within.mount_lt D n e (FS.of_expire_mount he).2
    blank_parent := fun f hf => by rw [FS.expire_parent, h.within.blank_parent f hf]; simp
    blank_entries := fun f hf => by
      change (if f = d then [] else s.tree.entries f) = []
      rw [h.within.blank_entries f hf, ite_self]
    blank_mount := fun f n hf => by
      rw [FS.expire_mount, h.within.blank_mount f n hf, ite_self] }
  leaf f hf := by
    obtain ⟨hentries, hmount⟩ := h.leaf f hf
    refine ⟨?_, fun n => ?_⟩
    · change (if f = d then [] else s.tree.entries f) = []
      rw [hentries, ite_self]
    · rw [FS.expire_mount, hmount, ite_self]
  root_dir := h.root_dir
  cwd_dir := h.cwd_dir

theorem FS.Sound.expire (h : s.Sound) (hd : ¬ s.Held d) : (s.expire d).Sound := by
  refine ⟨h.tree.expire ?_, h.accounts.keep (s.expire_keepsTable d)⟩
  rintro rfl
  exact hd .root

/-- Every step keeps the state sound. -/
theorem FS.Sound.step (h : s.Sound) (hstep : Step s s') : s'.Sound := by
  cases hstep with
  | call c _ r _ hr => exact (h.call hr).1
  | expire d hd => exact h.expire hd
  | other _ hsame => exact ⟨h.tree.keep hsame.keepsTree, h.accounts.keep hsame.keepsTable⟩

/-- Every state an instance reaches is sound. -/
theorem Reachable.sound (h : Reachable s) : s.Sound := by
  obtain ⟨root, env, hrun⟩ := h
  induction hrun with
  | refl => exact sound_init root env
  | tail _ hstep ih => exact ih.step hstep

end Steps

/-! ## Runs of given calls -/

section Given

variable {s : FS}

/-- The state after a call that does not crash. -/
def FS.after (s : FS) (c : Call) : FS :=
  match c.exec s with
  | some (s', _) => s'
  | none => s

theorem FS.exec_after {c : Call} (h : (c.exec s).map (fun p => p.2.isOk) = some true) :
    c.exec s = some (s.after c, .ok ()) := by
  obtain ⟨⟨s', r⟩, heq, hok⟩ := Option.map_eq_some_iff.mp h
  have hafter : s.after c = s' := by
    unfold after
    rw [heq]
  cases r with
  | ok _ => rw [heq, hafter]
  | error _ => cases hok

def FS.listedFiles (s : FS) (d : FileId) : List FileId :=
  (s.file d).entries.map Prod.snd ++ (s.file d).dcache.entries.map fun e => e.2.file

/-- Files that are held, up to `depth` names below those that are held from outside. -/
def FS.heldFiles (s : FS) : Nat → List FileId
  | 0 => s.rootDirectory :: s.cwd :: (s.fileTable.filterMap id).map fun o => (s.openFile o).file
  | depth + 1 => s.heldFiles depth ++ (s.heldFiles depth).flatMap s.listedFiles

theorem FS.held_of_mem (depth : Nat) : ∀ f ∈ s.heldFiles depth, s.Held f := by
  induction depth with
  | zero =>
    intro f hf
    rcases List.mem_cons.mp hf with rfl | hf
    · exact .root
    rcases List.mem_cons.mp hf with rfl | hf
    · exact .cwd
    · obtain ⟨o, ho, rfl⟩ := List.mem_map.mp hf
      obtain ⟨slot, hslot, heq⟩ := List.mem_filterMap.mp ho
      exact .opened o (heq ▸ hslot)
  | succ depth ih =>
    intro f hf
    rcases List.mem_append.mp hf with hf | hf
    · exact ih f hf
    · obtain ⟨d, hd, hf⟩ := List.mem_flatMap.mp hf
      rcases List.mem_append.mp hf with hf | hf
      · obtain ⟨⟨n, _⟩, he, rfl⟩ := List.mem_map.mp hf
        exact .entry d _ n (ih d hd) he
      · obtain ⟨⟨n, e⟩, he, rfl⟩ := List.mem_map.mp hf
        exact .mount d e n (ih d hd) (AList.mem_lookup_iff.mpr he)

/-- Whether a state is settled can be checked over the files it has. -/
def FS.SettledWithin (s : FS) (depth : Nat) : Prop :=
  ∀ f, f < s.nextFile → ∀ d ∈ (s.file f).parent, d ∈ s.heldFiles depth

instance (s : FS) (depth : Nat) : Decidable (s.SettledWithin depth) :=
  inferInstanceAs (Decidable (∀ f, f < s.nextFile → _))

theorem FS.TreeSound.settled (h : s.TreeSound) {depth : Nat} (hcheck : s.SettledWithin depth) :
    s.Settled := by
  intro f d hd
  have hlt : f < s.nextFile := by
    by_contra hge
    have hblank := h.within.blank_parent f (Nat.le_of_not_lt hge)
    rw [show s.tree.parent f = (s.file f).parent from rfl, hd] at hblank
    cases hblank
  exact FS.held_of_mem depth d (hcheck f hlt d hd)

/-- A path leads where its resolution ends, the state being left as it is. -/
theorem FS.Sound.leads (h : s.Sound) {path : Path} {dirfd : Int}
    (hp : (Path.parseParent path dirfd s).map Prod.snd = some (.ok (d, n))) : s.Leads path dirfd d n := by
  obtain ⟨⟨s', r⟩, heq, hr⟩ := Option.map_eq_some_iff.mp hp
  obtain ⟨rfl, _⟩ := Path.reads_parseParent h.tree h.existing path dirfd s' r heq
  exact heq.trans (congrArg (fun r => some (s', r)) hr)

theorem Reachable.init (root : Nat) (env : Env) : Reachable (FS.init root env) := ⟨root, env, .refl⟩

theorem Reachable.step {s' : FS} (h : Reachable s) (hstep : Step s s') : Reachable s' := by
  obtain ⟨root, env, hrun⟩ := h
  exact ⟨root, env, hrun.tail hstep⟩

theorem Reachable.after (h : Reachable s) (depth : Nat) (c : Call)
    (hrun : (c.exec s).isSome = true) (hsettled : s.SettledWithin depth) : Reachable (s.after c) := by
  obtain ⟨⟨s', r⟩, heq⟩ := Option.isSome_iff_exists.mp hrun
  have hafter : s.after c = s' := by
    unfold FS.after
    rw [heq]
  rw [hafter]
  exact h.step (.call c s' r (h.sound.tree.settled hsettled) heq)

end Given

end WasmFS
