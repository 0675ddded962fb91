-- SUMMARY: The name table and the directories as two indexes of the same nodes, with the changes that keep them so.
import Emscripten.JsFs.TreeCalls

/-!
# The name table

Every name is stored twice: a node is in a chain of the name table, and an entry of its
parent's contents. `Indexed` says that the two agree. A change that takes some nodes out of
both, or puts one node into both, keeps it.
-/

namespace JsFs

open Prog

/-! ## Mounts -/

variable {m : MountId}

namespace FS

/-- A mount that `mount` made; the one at "/" is not. -/
def IsMount (s : FS) (m : MountId) : Prop := 0 < m ∧ m < s.nextMount

/-- The node belongs to a mount that was unmounted. These mounts are given with the state. -/
def Destroyed (s : FS) (gone : List MountId) (n : NodeId) : Prop :=
  ∃ m ∈ gone, (s.node n).mount = some m

/-- What holds of identities and mounts. -/
structure Family (s : FS) (gone : List MountId) : Prop where
  blank : ∀ n, s.nextInode ≤ n → s.node n = FS.blank.node n
  parent : ∀ n < s.nextInode, (s.node n).parent < s.nextInode
  mount : ∀ n < s.nextInode, (s.node (s.node n).parent).mount = (s.node n).mount
  root : s.root < s.nextInode ∧ (s.node s.root).mount = some 0
  mounted : ∀ n m, (s.node n).mounted = some m →
    s.IsMount m ∧ (s.node (s.mount m).root).mount = some m
  one : ∀ n n' m, (s.node n).mounted = some m → (s.node n').mounted = some m → n = n'
  /-- A mount in a list is mounted inside the mount whose list it is. -/
  child : ∀ m₁, ∀ m ∈ (s.mount m₁).mounts, s.IsMount m ∧
    ∀ n, (s.node n).mounted = some m → (s.node n).mount = some m₁
  first : 0 < s.nextMount
  past : ∀ m ∈ gone, s.IsMount m
  live : ∀ n m, (s.node n).mounted = some m → ¬ s.Destroyed gone n → m ∉ gone

namespace Family

variable {s t : FS} {gone : List MountId} {n : NodeId}

theorem lt_of_isDir (h : s.Family gone) (hn : (s.node n).isDir = true) : n < s.nextInode := by
  apply Nat.lt_of_not_le
  intro hle
  rw [h.blank n hle] at hn
  cases hn

theorem lt_of_mount (h : s.Family gone) (hn : (s.node n).mount = some m) : n < s.nextInode := by
  apply Nat.lt_of_not_le
  intro hle
  rw [h.blank n hle] at hn
  cases hn

theorem lt_of_mounted (h : s.Family gone) (hn : (s.node n).mounted = some m) : n < s.nextInode := by
  apply Nat.lt_of_not_le
  intro hle
  rw [h.blank n hle] at hn
  cases hn

/-- What is below a node is destroyed with it. -/
theorem destroyed_parent (h : s.Family gone) (hn : n < s.nextInode) :
    s.Destroyed gone (s.node n).parent ↔ s.Destroyed gone n := by
  unfold Destroyed
  rw [h.mount n hn]

/-- Lookups stay among the nodes that are not destroyed, where the name table does. -/
theorem closed (h : s.Family gone)
    (hchain : ∀ k, ∀ n ∈ s.nameTable k, n < s.nextInode ∧ ¬ s.Destroyed gone n) :
    s.Closed fun n => n < s.nextInode ∧ ¬ s.Destroyed gone n where
  root := by
    refine ⟨h.root.1, ?_⟩
    rintro ⟨m, hm, hroot⟩
    rw [h.root.2] at hroot
    cases hroot
    exact Nat.lt_irrefl 0 (h.past 0 hm).1
  chain := hchain
  parent n hn := ⟨h.parent n hn.1, fun hd => hn.2 ((h.destroyed_parent hn.1).mp hd)⟩
  mounted n hn m hm := by
    have hroot := (h.mounted n m hm).2
    refine ⟨h.lt_of_mount hroot, ?_⟩
    rintro ⟨m', hm', he⟩
    rw [hroot] at he
    cases he
    exact h.live n m hm hn.2 hm'

/-- Nodes change their parents within their mounts, and nothing else happens. -/
theorem relink (h : s.Family gone) (hnext : t.nextInode = s.nextInode) (hroot : t.root = s.root)
    (hmount : t.mount = s.mount) (hnextMount : t.nextMount = s.nextMount)
    (hnode : ∀ n, (t.node n).mount = (s.node n).mount ∧ (t.node n).mounted = (s.node n).mounted)
    (hblank : ∀ n, s.nextInode ≤ n → t.node n = s.node n)
    (hparent : ∀ n < s.nextInode, (t.node n).parent = (s.node n).parent ∨
      (t.node n).parent < s.nextInode ∧ (s.node (t.node n).parent).mount = (s.node n).mount) :
    t.Family gone := by
  have hdes : ∀ n, t.Destroyed gone n ↔ s.Destroyed gone n := fun n => by
    unfold Destroyed
    rw [(hnode n).1]
  have his : ∀ m, t.IsMount m ↔ s.IsMount m := fun m => by
    unfold IsMount
    rw [hnextMount]
  refine ⟨fun n hn => ?_, fun n hn => ?_, fun n hn => ?_, ?_, fun n m hm => ?_, fun n n' m hm hm' => ?_,
    fun m₁ m hm => ?_, by rw [hnextMount]; exact h.first, fun m hm => (his m).mpr (h.past m hm),
    fun n m hm hd => ?_⟩
  · rw [hnext] at hn
    rw [hblank n hn]
    exact h.blank n hn
  · rw [hnext] at hn ⊢
    rcases hparent n hn with he | hlt
    · rw [he]
      exact h.parent n hn
    · exact hlt.1
  · rw [hnext] at hn
    rw [(hnode _).1, (hnode n).1]
    rcases hparent n hn with he | hlt
    · rw [he]
      exact h.mount n hn
    · exact hlt.2
  · rw [hroot, hnext, (hnode _).1]
    exact h.root
  · rw [(hnode n).2] at hm
    rw [his, hmount, (hnode _).1]
    exact h.mounted n m hm
  · rw [(hnode _).2] at hm hm'
    exact h.one n n' m hm hm'
  · rw [hmount] at hm
    rw [his]
    refine ⟨(h.child m₁ m hm).1, fun n hn => ?_⟩
    rw [(hnode n).2] at hn
    rw [(hnode n).1]
    exact (h.child m₁ m hm).2 n hn
  · rw [(hnode n).2] at hm
    exact h.live n m hm fun hs => hd ((hdes n).mpr hs)

variable [Build]

theorem grow (h : s.Family gone) {p : NodeId} (hp : (s.node p).isDir = true) (name : Name)
    (data : Data) (perm : Mode) : (s.grow p name data perm).Family gone := by
  have hlt := h.lt_of_isDir hp
  have hold : ∀ {n}, n < s.nextInode + 1 → n ≠ s.nextInode → n < s.nextInode :=
    fun hn hne => Nat.lt_of_le_of_ne (Nat.le_of_lt_succ hn) hne
  -- The mounts of all nodes, by cases on whether the node is new.
  have hmounted : ∀ n, ((s.grow p name data perm).node n).mounted = (s.node n).mounted := fun n => by
    by_cases hnew : n = s.nextInode
    · rw [grow_node hlt, if_pos hnew, h.blank n (Nat.le_of_eq hnew.symm)]
      rfl
    · exact (grow_links hlt name data perm hnew).2
  have hmount : ∀ {n}, n < s.nextInode →
      ((s.grow p name data perm).node n).mount = (s.node n).mount := fun {n} hn => by
    rw [grow_node hlt, if_neg (Nat.ne_of_lt hn)]
    split
    · next he => simp [he]
    · rfl
  refine ⟨fun n hn => ?_, fun n hn => ?_, fun n hn => ?_, ?_, fun n m hm => ?_, fun n n' m hm hm' => ?_,
    fun m₁ m hm => ?_, h.first, h.past, fun n m hm hd => ?_⟩
  · change s.nextInode + 1 ≤ n at hn
    rw [grow_node hlt, if_neg (Nat.ne_of_gt hn), if_neg (Nat.ne_of_gt (Nat.lt_trans hlt hn))]
    exact h.blank n (Nat.le_of_succ_le hn)
  · change n < s.nextInode + 1 at hn
    change _ < s.nextInode + 1
    by_cases hnew : n = s.nextInode
    · rw [grow_node hlt, if_pos hnew]
      exact Nat.lt_succ_of_lt hlt
    · rw [(grow_links hlt name data perm hnew).1]
      exact Nat.lt_succ_of_lt (h.parent n (hold hn hnew))
  · change n < s.nextInode + 1 at hn
    by_cases hnew : n = s.nextInode
    · have hnode : (s.grow p name data perm).node n = ⟨p, name, data, perm, (s.node p).mount, none⟩ := by
        rw [grow_node hlt, if_pos hnew]
      rw [hnode]
      exact hmount hlt
    · have hn' := hold hn hnew
      rw [(grow_links hlt name data perm hnew).1, hmount (h.parent n hn'), hmount hn']
      exact h.mount n hn'
  · exact ⟨Nat.lt_succ_of_lt h.root.1, (hmount h.root.1).trans h.root.2⟩
  · rw [hmounted] at hm
    have hroot := (h.mounted n m hm).2
    exact ⟨(h.mounted n m hm).1, (hmount (h.lt_of_mount hroot)).trans hroot⟩
  · rw [hmounted] at hm hm'
    exact h.one n n' m hm hm'
  · refine ⟨(h.child m₁ m hm).1, fun n hn => ?_⟩
    rw [hmounted] at hn
    exact (hmount (h.lt_of_mounted hn)).trans ((h.child m₁ m hm).2 n hn)
  · rw [hmounted] at hm
    refine h.live n m hm fun ⟨m', hm', he⟩ => hd ⟨m', hm', ?_⟩
    exact (hmount (h.lt_of_mounted hm)).trans he

end Family

/-! ## Mounting -/

section Mounting

variable {s : FS} {n : NodeId} {path : Path} [Build]

/-- The root of a new mount, and the node it is mounted on. -/
def withMount (s : FS) (path : Path) (n : NodeId) : FS :=
  { s with
    node := Function.update (Function.update s.node s.nextInode
      ⟨s.nextInode, ['/'], .dir ⟨[], none⟩, S_IRWXUGO, some s.nextMount, none⟩) n
      { s.node n with mounted := some s.nextMount }
    nextInode := s.nextInode + 1
    nameTable := Function.update s.nameTable (hashName s.nextInode ['/'])
      (s.nextInode :: s.nameTable (hashName s.nextInode ['/']))
    mount := Function.update s.mount s.nextMount ⟨path, s.nextInode, []⟩
    nextMount := s.nextMount + 1 }

omit [Build] in
/-- A mount in the list of the mount that its mountpoint is in. -/
def enlist (s : FS) (n : NodeId) (m : MountId) : FS :=
  match (s.node n).mount with
  | some p => s.setMount p { s.mount p with mounts := (s.mount p).mounts ++ [m] }
  | none => s

theorem addMount_eq (hn : n < s.nextInode) :
    s.addMount path n = (s.withMount path n).enlist n s.nextMount := by
  have hne : n ≠ s.nextInode := Nat.ne_of_lt hn
  refine congrArg (fun t => enlist t n s.nextMount) ?_
  simp [withMount, createNode, setNode, setMount, hashAddNode, setChain, hashOf, hne]

omit [Build] in
theorem enlist_mount (s : FS) (n : NodeId) (m : MountId) (x : MountId) :
    ((s.enlist n m).mount x).root = (s.mount x).root ∧
      ∀ m' ∈ ((s.enlist n m).mount x).mounts, m' ∈ (s.mount x).mounts ∨
        m' = m ∧ (s.node n).mount = some x := by
  unfold enlist
  split
  · next p hp =>
      simp only [setMount, Function.update_apply]
      split
      · next hx =>
          subst hx
          refine ⟨rfl, fun m' hm' => ?_⟩
          rcases List.mem_append.mp hm' with hm' | hm'
          · exact .inl hm'
          · exact .inr ⟨List.mem_singleton.mp hm', hp⟩
      · exact ⟨rfl, fun _ hm' => .inl hm'⟩
  · exact ⟨rfl, fun _ hm' => .inl hm'⟩

omit [Build] in
/-- All but the lists of mounts. -/
theorem enlist_same (s : FS) (n : NodeId) (m : MountId) : (s.enlist n m).node = s.node ∧
    (s.enlist n m).nextInode = s.nextInode ∧ (s.enlist n m).nameTable = s.nameTable ∧
    (s.enlist n m).root = s.root ∧ (s.enlist n m).nextMount = s.nextMount ∧
    (s.enlist n m).currentPath = s.currentPath := by
  unfold enlist
  split <;> exact ⟨rfl, rfl, rfl, rfl, rfl, rfl⟩

omit [Build] in
/-- The lists of mounts change, and a mount that comes into one is in the right one. -/
theorem Family.relist {t : FS} {gone : List MountId} (h : s.Family gone) (hnode : t.node = s.node)
    (hnext : t.nextInode = s.nextInode) (hroot : t.root = s.root) (hnextMount : t.nextMount = s.nextMount)
    (hmount : ∀ x, (t.mount x).root = (s.mount x).root ∧ ∀ m ∈ (t.mount x).mounts,
      m ∈ (s.mount x).mounts ∨ s.IsMount m ∧ ∀ n, (s.node n).mounted = some m → (s.node n).mount = some x) :
    t.Family gone := by
  have his : ∀ m, t.IsMount m ↔ s.IsMount m := fun m => by
    unfold IsMount
    rw [hnextMount]
  refine ⟨?_, ?_, ?_, ?_, fun n m hm => ?_, ?_, fun x m hm => ?_, by rw [hnextMount]; exact h.first,
    fun m hm => (his m).mpr (h.past m hm), ?_⟩
  · rw [hnext, hnode]
    exact h.blank
  · rw [hnext, hnode]
    exact h.parent
  · rw [hnext, hnode]
    exact h.mount
  · rw [hroot, hnext, hnode]
    exact h.root
  · rw [hnode] at hm
    rw [his, (hmount m).1, hnode]
    exact h.mounted n m hm
  · rw [hnode]
    exact h.one
  · rw [his, hnode]
    rcases (hmount x).2 m hm with hm | hm
    · exact h.child x m hm
    · exact hm
  · unfold Destroyed
    rw [hnode]
    exact h.live

theorem withMount_node {x : NodeId} (hx : x ≠ s.nextInode) :
    ((s.withMount path n).node x).parent = (s.node x).parent ∧
      ((s.withMount path n).node x).mount = (s.node x).mount := by
  simp only [withMount, Function.update_apply, hx, if_false]
  split
  · next he => exact he ▸ ⟨rfl, rfl⟩
  · exact ⟨rfl, rfl⟩

theorem withMount_mounted (n : NodeId) (path : Path) (hs : (s.node s.nextInode).mounted = none)
    (x : NodeId) : ((s.withMount path n).node x).mounted =
      if x = n then some s.nextMount else (s.node x).mounted := by
  simp only [withMount, Function.update_apply]
  split
  · rfl
  · split
    · next he => rw [he, hs]
    · rfl

theorem withMount_root (path : Path) (hn : n < s.nextInode) : (s.withMount path n).node s.nextInode =
    ⟨s.nextInode, ['/'], .dir ⟨[], none⟩, S_IRWXUGO, some s.nextMount, none⟩ := by
  simp [withMount, Nat.ne_of_gt hn]

theorem Family.withMount {gone : List MountId} (h : s.Family gone) (hn : n < s.nextInode) :
    (s.withMount path n).Family gone := by
  have hold : ∀ {x}, x < s.nextInode + 1 → x ≠ s.nextInode → x < s.nextInode :=
    fun hx hne => Nat.lt_of_le_of_ne (Nat.le_of_lt_succ hx) hne
  have hmounted := withMount_mounted n path (congrArg Node.mounted (h.blank _ (Nat.le_refl _)))
  have hmount : ∀ {x}, x < s.nextInode → ((s.withMount path n).node x).mount = (s.node x).mount :=
    fun hx => (withMount_node (Nat.ne_of_lt hx)).2
  have hroot : ∀ {m}, m ≠ s.nextMount → ((s.withMount path n).mount m).root = (s.mount m).root :=
    fun hm => by simp [FS.withMount, hm]
  have hlt : ∀ {x m}, (s.node x).mounted = some m → m < s.nextMount := fun hm => (h.mounted _ _ hm).1.2
  have his : ∀ {m}, s.IsMount m → (s.withMount path n).IsMount m := fun hm =>
    ⟨hm.1, Nat.lt_succ_of_lt hm.2⟩
  refine ⟨fun x hx => ?_, fun x hx => ?_, fun x hx => ?_, ?_, fun x m hm => ?_, fun x x' m hm hm' => ?_,
    fun x m hm => ?_, Nat.succ_pos _, fun m hm => his (h.past m hm), fun x m hm hd => ?_⟩
  · change s.nextInode + 1 ≤ x at hx
    have hx₁ : x ≠ n := Nat.ne_of_gt (Nat.lt_trans hn hx)
    have hx₂ : x ≠ s.nextInode := Nat.ne_of_gt hx
    simp only [FS.withMount, Function.update_apply, hx₁, hx₂, if_false]
    exact h.blank x (Nat.le_of_succ_le hx)
  · change _ < s.nextInode + 1
    by_cases hnew : x = s.nextInode
    · rw [hnew, withMount_root path hn]
      exact Nat.lt_succ_self _
    · rw [(withMount_node hnew).1]
      exact Nat.lt_succ_of_lt (h.parent x (hold hx hnew))
  · by_cases hnew : x = s.nextInode
    · rw [hnew, withMount_root path hn]
      exact congrArg Node.mount (withMount_root path hn)
    · have hx' := hold hx hnew
      rw [(withMount_node hnew).1, hmount (h.parent x hx'), hmount hx']
      exact h.mount x hx'
  · exact ⟨Nat.lt_succ_of_lt h.root.1, (hmount h.root.1).trans h.root.2⟩
  · rw [hmounted] at hm
    split at hm
    · cases hm
      refine ⟨⟨h.first, Nat.lt_succ_self _⟩, ?_⟩
      simp only [FS.withMount, Function.update_self]
      exact congrArg Node.mount (withMount_root path hn)
    · have hm' := h.mounted x m hm
      rw [hroot (Nat.ne_of_lt (hlt hm)), hmount (h.lt_of_mount hm'.2)]
      exact ⟨his hm'.1, hm'.2⟩
  · rw [hmounted] at hm hm'
    -- Only the new mount is the next one.
    split at hm <;> split at hm'
    · next hx hx' => exact hx.trans hx'.symm
    · cases hm
      exact absurd (hlt hm') (Nat.lt_irrefl _)
    · cases hm'
      exact absurd (hlt hm) (Nat.lt_irrefl _)
    · exact h.one x x' m hm hm'
  · simp only [FS.withMount, Function.update_apply] at hm
    split at hm
    · cases hm
    · obtain ⟨hm₁, hm₂⟩ := h.child x m hm
      refine ⟨his hm₁, fun y hy => ?_⟩
      rw [hmounted] at hy
      split at hy
      · cases hy
        exact absurd hm₁.2 (Nat.lt_irrefl _)
      · exact (hmount (h.lt_of_mounted hy)).trans (hm₂ y hy)
  · rw [hmounted] at hm
    split at hm
    · cases hm
      exact fun hg => Nat.lt_irrefl _ (h.past _ hg).2
    · refine h.live x m hm fun ⟨m', hm', he⟩ => hd ⟨m', hm', ?_⟩
      exact (hmount (h.lt_of_mounted hm)).trans he

/-- A new mount on a node. -/
theorem Family.addMount {gone : List MountId} (h : s.Family gone) (hn : n < s.nextInode) :
    (s.addMount path n).Family gone := by
  have hbase : (s.withMount path n).Family gone := h.withMount hn
  rw [addMount_eq hn]
  obtain ⟨h₁, h₂, _, h₄, h₅, _⟩ := enlist_same (s.withMount path n) n s.nextMount
  refine hbase.relist h₁ h₂ h₄ h₅ fun x => ⟨(enlist_mount _ n _ x).1, fun m hm => ?_⟩
  rcases (enlist_mount _ n _ x).2 m hm with hm | ⟨rfl, hx⟩
  · exact .inl hm
  · refine .inr ⟨⟨h.first, Nat.lt_succ_self _⟩, fun n' hn' => ?_⟩
    rw [hbase.one n' n _ hn' (by simp [FS.withMount])]
    exact hx

omit [Build] in
/-- A mount that is destroyed is the one that is unmounted, or is in the list of another. -/
theorem mem_getMounts (s : FS) (k : Nat) (check : List MountId) : ∀ m ∈ s.getMounts k check,
    m ∈ check ∨ ∃ m₁ ∈ s.getMounts k check, m ∈ (s.mount m₁).mounts := by
  induction k generalizing check with
  | zero => exact fun m hm => nomatch hm
  | succ k ih =>
    cases check with
    | nil => exact fun m hm => nomatch hm
    | cons c check =>
      intro m hm
      rcases List.mem_cons.mp hm with rfl | hm
      · exact .inl (List.mem_cons_self ..)
      rcases ih _ m hm with hin | ⟨m₁, h₁, hin⟩
      · rcases List.mem_append.mp hin with hin | hin
        · exact .inr ⟨c, List.mem_cons_self .., hin⟩
        · exact .inl (List.mem_cons_of_mem _ hin)
      · exact .inr ⟨m₁, List.mem_cons_of_mem _ h₁, hin⟩

omit [Build] in
/-- A mount out of the list of the mount that its mountpoint is in. -/
def unlist (s : FS) (n : NodeId) (m : MountId) : FS :=
  match (s.node n).mount with
  | some p => s.setMount p { s.mount p with mounts := (s.mount p).mounts.erase m }
  | none => s

/-- Their nodes leave the name table, and the node it is mounted on is no mountpoint. -/
def withoutMount (s : FS) (n : NodeId) (m : MountId) : FS :=
  (s.destroyMounts (s.below m)).setNode n { s.node n with mounted := none }

theorem removeMount_eq (s : FS) (n : NodeId) (m : MountId) :
    s.removeMount n m = (s.withoutMount n m).unlist n m := rfl

omit [Build] in
theorem unlist_mount (s : FS) (n : NodeId) (m : MountId) (x : MountId) :
    ((s.unlist n m).mount x).root = (s.mount x).root ∧
      ∀ m' ∈ ((s.unlist n m).mount x).mounts, m' ∈ (s.mount x).mounts := by
  unfold unlist
  split
  · simp only [setMount, Function.update_apply]
    split
    · next hx =>
        subst hx
        exact ⟨rfl, fun m' hm' => List.mem_of_mem_erase hm'⟩
    · exact ⟨rfl, fun _ hm' => hm'⟩
  · exact ⟨rfl, fun _ hm' => hm'⟩

omit [Build] in
theorem unlist_same (s : FS) (n : NodeId) (m : MountId) : (s.unlist n m).node = s.node ∧
    (s.unlist n m).nextInode = s.nextInode ∧ (s.unlist n m).nameTable = s.nameTable ∧
    (s.unlist n m).root = s.root ∧ (s.unlist n m).nextMount = s.nextMount ∧
    (s.unlist n m).currentPath = s.currentPath := by
  unfold unlist
  split <;> exact ⟨rfl, rfl, rfl, rfl, rfl, rfl⟩

theorem withoutMount_node (s : FS) (n : NodeId) (m : MountId) (x : NodeId) :
    (s.withoutMount n m).node x = if x = n then { s.node n with mounted := none } else s.node x := by
  simp [withoutMount, setNode, destroyMounts, Function.update_apply]

theorem Family.withoutMount {gone : List MountId} (h : s.Family gone) (hm : (s.node n).mounted = some m) :
    (s.withoutMount n m).Family (s.below m ++ gone) := by
  have hlinks : ∀ x, ((s.withoutMount n m).node x).parent = (s.node x).parent ∧
      ((s.withoutMount n m).node x).mount = (s.node x).mount := fun x => by
    rw [withoutMount_node]
    split
    · next he => exact he ▸ ⟨rfl, rfl⟩
    · exact ⟨rfl, rfl⟩
  have hmounted : ∀ {x m'}, ((s.withoutMount n m).node x).mounted = some m' →
      x ≠ n ∧ (s.node x).mounted = some m' := fun {x m'} hx => by
    rw [withoutMount_node] at hx
    split at hx
    · cases hx
    · next hne => exact ⟨hne, hx⟩
  have hbelow : ∀ m' ∈ s.below m, s.IsMount m' := fun m' hm' => by
    rcases mem_getMounts s _ _ m' hm' with hin | ⟨m₁, _, hin⟩
    · rw [List.mem_singleton.mp hin]
      exact (h.mounted n m hm).1
    · exact (h.child m₁ m' hin).1
  refine ⟨fun x hx => ?_, fun x hx => ?_, fun x hx => ?_, ?_, fun x m' hx => ?_, fun x x' m' hx hx' => ?_,
    fun x m' hx => ?_, h.first, fun m' hm' => ?_, fun x m' hx hd hg => ?_⟩
  · rw [withoutMount_node, if_neg (Nat.ne_of_gt (Nat.lt_of_lt_of_le (h.lt_of_mounted hm) hx))]
    exact h.blank x hx
  · rw [(hlinks x).1]
    exact h.parent x hx
  · rw [(hlinks x).1, (hlinks _).2, (hlinks x).2]
    exact h.mount x hx
  · exact ⟨h.root.1, (hlinks _).2.trans h.root.2⟩
  · have hx' := h.mounted x m' (hmounted hx).2
    exact ⟨hx'.1, (hlinks _).2.trans hx'.2⟩
  · exact h.one x x' m' (hmounted hx).2 (hmounted hx').2
  · refine ⟨(h.child x m' hx).1, fun y hy => ?_⟩
    exact (hlinks y).2.trans ((h.child x m' hx).2 y (hmounted hy).2)
  · rcases List.mem_append.mp hm' with hm' | hm'
    · exact hbelow m' hm'
    · exact h.past m' hm'
  · have hlive : ¬ ∃ m' ∈ s.below m ++ gone, (s.node x).mount = some m' := fun ⟨m₁, h₁, he⟩ =>
      hd ⟨m₁, h₁, (hlinks x).2.trans he⟩
    rcases List.mem_append.mp hg with hg | hg
    · -- The mountpoint of a mount that goes along is itself on one that goes.
      rcases mem_getMounts s _ _ m' hg with hin | ⟨m₁, h₁, hin⟩
      · rw [List.mem_singleton.mp hin] at hx
        exact (hmounted hx).1 (h.one x n m (hmounted hx).2 hm)
      · exact hlive ⟨m₁, List.mem_append_left _ h₁, (h.child m₁ m' hin).2 x (hmounted hx).2⟩
    · exact h.live x m' (hmounted hx).2
        (fun ⟨m₁, h₁, he⟩ => hlive ⟨m₁, List.mem_append_right _ h₁, he⟩) hg

theorem Family.removeMount {gone : List MountId} (h : s.Family gone) (hm : (s.node n).mounted = some m) :
    (s.removeMount n m).Family (s.below m ++ gone) := by
  rw [removeMount_eq]
  obtain ⟨h₁, h₂, _, h₄, h₅, _⟩ := unlist_same (s.withoutMount n m) n m
  exact (h.withoutMount hm).relist h₁ h₂ h₄ h₅ fun x =>
    ⟨(unlist_mount _ n m x).1, fun m' hm' => .inl ((unlist_mount _ n m x).2 m' hm')⟩

end Mounting

/-! ## The two indexes -/

/-- The entries of a directory. -/
def entries (s : FS) (d : NodeId) : List (Name × NodeId) := (s.node d).contents.entries

/-- The node is listed under its own name in its parent's contents. -/
def Listed (s : FS) (n : NodeId) : Prop := ((s.node n).name, n) ∈ s.entries (s.node n).parent

instance (s : FS) (n : NodeId) : Decidable (s.Listed n) := inferInstanceAs (Decidable (_ ∈ _))

/-- The node is a root, or listed. -/
def Placed (s : FS) (n : NodeId) : Prop := s.isRoot n = true ∨ s.Listed n

variable [Build]

/-- A node is only in the chain of its hash, and there once. -/
structure Chained (s : FS) : Prop where
  hashed : ∀ k, ∀ n ∈ s.nameTable k, s.hashOf n = k
  nodup : ∀ k, (s.nameTable k).Nodup

structure Indexed (s : FS) (gone : List MountId) : Prop extends Chained s where
  lt : ∀ k, ∀ n ∈ s.nameTable k, n < s.nextInode
  live : ∀ k, ∀ n ∈ s.nameTable k, ¬ s.Destroyed gone n
  placed : ∀ k, ∀ n ∈ s.nameTable k, s.Placed n
  chained : ∀ n < s.nextInode, ¬ s.Destroyed gone n → s.Placed n → n ∈ s.nameTable (s.hashOf n)
  entry : ∀ d, ∀ e ∈ s.entries d, e.2 < s.nextInode ∧ (s.node e.2).parent = d ∧ (s.node e.2).name = e.1
  proto : ∀ d, (s.node d).contents.proto = none
  unique : ∀ d, ∀ e ∈ s.entries d, ∀ e' ∈ s.entries d, Build.fold e.1 = Build.fold e'.1 → e = e'
  root : ∀ n < s.nextInode, s.isRoot n = true →
    (s.node n).isDir = true ∧ ((s.node n).name = ['/'] ∨ s.Listed n)

/-- The nodes `Q` leave their chains, and of them the nodes `R` their directories. -/
structure Drops (s t : FS) (Q R : NodeId → Prop) : Prop where
  nextInode : t.nextInode = s.nextInode
  node : ∀ n, (t.node n).parent = (s.node n).parent ∧ (t.node n).name = (s.node n).name ∧
    (t.node n).isDir = (s.node n).isDir
  chain : ∀ k n, n ∈ t.nameTable k ↔ n ∈ s.nameTable k ∧ ¬ Q n
  nodup : ∀ k, (t.nameTable k).Nodup
  entry : ∀ d e, e ∈ t.entries d ↔ e ∈ s.entries d ∧ ¬ R e.2
  proto : ∀ d, (t.node d).contents.proto = (s.node d).contents.proto

/-- The nodes `R` leave their chains and directories, and of them `n` is put under the name `k`
into the directory `p`, where it is listed if `l` holds. -/
structure Places (s t : FS) (R : NodeId → Prop) (n p : NodeId) (k : Name) (l : Prop) : Prop where
  nextInode : s.nextInode ≤ t.nextInode
  lt : n < t.nextInode
  older : ∀ m < t.nextInode, m ≠ n → m < s.nextInode
  self : R n
  parent : (t.node n).parent = p
  name : (t.node n).name = k
  node : ∀ m ≠ n, (t.node m).parent = (s.node m).parent ∧ (t.node m).name = (s.node m).name ∧
    (t.node m).isDir = (s.node m).isDir ∧ (t.node m).mount = (s.node m).mount
  chain : ∀ h m, m ∈ t.nameTable h ↔ m = n ∧ h = hashName p k ∨ m ∈ s.nameTable h ∧ ¬ R m
  nodup : ∀ h, (t.nameTable h).Nodup
  entry : ∀ d e, e ∈ t.entries d ↔ (l ∧ d = p ∧ e = (k, n)) ∨ e ∈ s.entries d ∧ ¬ R e.2
  proto : ∀ d, (t.node d).contents.proto = none

namespace Indexed

variable {s t : FS} {gone : List MountId} {n : NodeId}

theorem drops {gone' : List MountId} {Q R : NodeId → Prop} (h : s.Indexed gone) (hd : s.Drops t Q R)
    (hR : ∀ n, R n → Q n ∧ s.isRoot n = false)
    (hgone : ∀ n, t.Destroyed gone' n ↔ s.Destroyed gone n ∨ Q n ∧ ¬ R n) : t.Indexed gone' := by
  have hhash : ∀ n, t.hashOf n = s.hashOf n := fun n => by
    unfold hashOf
    rw [(hd.node n).1, (hd.node n).2.1]
  have hroot : ∀ n, t.isRoot n = s.isRoot n := fun n => by
    unfold isRoot
    rw [(hd.node n).1]
  have hlisted : ∀ n, t.Listed n ↔ s.Listed n ∧ ¬ R n := fun n => by
    unfold Listed
    rw [(hd.node n).1, (hd.node n).2.1, hd.entry]
  refine ⟨⟨fun k n hn => ?_, hd.nodup⟩, fun k n hn => ?_, fun k n hn => ?_, fun k n hn => ?_,
    fun n hn hlive hp => ?_, fun d e he => ?_, fun d => ?_, fun d e he e' he' hfold => ?_, fun n hn hr => ?_⟩
  · rw [hhash]
    exact h.hashed k n ((hd.chain k n).mp hn).1
  · rw [hd.nextInode]
    exact h.lt k n ((hd.chain k n).mp hn).1
  · obtain ⟨hin, hQ⟩ := (hd.chain k n).mp hn
    rw [hgone]
    rintro (hdes | ⟨hq, _⟩)
    · exact h.live k n hin hdes
    · exact hQ hq
  · obtain ⟨hin, hQ⟩ := (hd.chain k n).mp hn
    unfold Placed
    rw [hroot, hlisted]
    exact (h.placed k n hin).imp id fun hl => ⟨hl, fun hr => hQ (hR n hr).1⟩
  · rw [hd.nextInode] at hn
    rw [hgone] at hlive
    unfold Placed at hp
    rw [hroot, hlisted] at hp
    rw [hhash, hd.chain]
    have hnR : ¬ R n := by
      rcases hp with hr | ⟨_, hr⟩
      · exact fun hR' => by simp [(hR n hR').2] at hr
      · exact hr
    exact ⟨h.chained n hn (fun hdes => hlive (.inl hdes)) (hp.imp id And.left),
      fun hq => hlive (.inr ⟨hq, hnR⟩)⟩
  · rw [hd.nextInode, (hd.node _).1, (hd.node _).2.1]
    exact h.entry d e ((hd.entry d e).mp he).1
  · exact (hd.proto d).trans (h.proto d)
  · exact h.unique d e ((hd.entry d e).mp he).1 e' ((hd.entry d e').mp he').1 hfold
  · rw [hd.nextInode] at hn
    rw [hroot] at hr
    rw [(hd.node n).2.2, (hd.node n).2.1, hlisted]
    refine ⟨(h.root n hn hr).1, (h.root n hn hr).2.imp id fun hl => ⟨hl, fun hR' => ?_⟩⟩
    simp [(hR n hR').2] at hr

theorem places {R : NodeId → Prop} {p : NodeId} {k : Name} {l : Prop} (h : s.Indexed gone)
    (hp : s.Places t R n p k l) (hR : ∀ m ≠ n, R m → s.isRoot m = false)
    (hlive : ¬ t.Destroyed gone n) (hl : l ∨ p = n)
    (hroot : p = n → (t.node n).isDir = true ∧ (k = ['/'] ∨ l))
    (hfree : l → ∀ e ∈ s.entries p, ¬ R e.2 → Build.fold e.1 ≠ Build.fold k) : t.Indexed gone := by
  have hne : ∀ {m}, ¬ R m → m ≠ n := fun hm he => hm (he ▸ hp.self)
  have hhash : ∀ {m}, m ≠ n → t.hashOf m = s.hashOf m := fun {m} hm => by
    unfold hashOf
    rw [(hp.node m hm).1, (hp.node m hm).2.1]
  have hhashn : t.hashOf n = hashName p k := by
    unfold hashOf
    rw [hp.parent, hp.name]
  have hisRoot : ∀ {m}, m ≠ n → t.isRoot m = s.isRoot m := fun {m} hm => by
    unfold isRoot
    rw [(hp.node m hm).1]
  have hdes : ∀ {m}, m ≠ n → (t.Destroyed gone m ↔ s.Destroyed gone m) := fun {m} hm => by
    unfold Destroyed
    rw [(hp.node m hm).2.2.2]
  have hlisted : ∀ {m}, m ≠ n → (t.Listed m ↔ s.Listed m ∧ ¬ R m) := fun {m} hm => by
    unfold Listed
    rw [(hp.node m hm).1, (hp.node m hm).2.1, hp.entry]
    constructor
    · rintro (⟨_, _, he⟩ | hin)
      · exact absurd (congrArg Prod.snd he) hm
      · exact hin
    · exact .inr
  have hlistedn : l → t.Listed n := fun hl => by
    unfold Listed
    rw [hp.parent, hp.name]
    exact (hp.entry p (k, n)).mpr (.inl ⟨hl, rfl, rfl⟩)
  refine ⟨⟨fun h' m hm => ?_, hp.nodup⟩, fun h' m hm => ?_, fun h' m hm => ?_, fun h' m hm => ?_,
    fun m hm hm' hpl => ?_, fun d e he => ?_, hp.proto, fun d e he e' he' hfold => ?_, fun m hm hr => ?_⟩
  · rcases (hp.chain h' m).mp hm with ⟨rfl, rfl⟩ | ⟨hin, hnR⟩
    · exact hhashn
    · rw [hhash (hne hnR)]
      exact h.hashed h' m hin
  · rcases (hp.chain h' m).mp hm with ⟨rfl, _⟩ | ⟨hin, _⟩
    · exact hp.lt
    · exact Nat.lt_of_lt_of_le (h.lt h' m hin) hp.nextInode
  · rcases (hp.chain h' m).mp hm with ⟨rfl, _⟩ | ⟨hin, hnR⟩
    · exact hlive
    · rw [hdes (hne hnR)]
      exact h.live h' m hin
  · rcases (hp.chain h' m).mp hm with ⟨rfl, _⟩ | ⟨hin, hnR⟩
    · rcases hl with hl | he
      · exact .inr (hlistedn hl)
      · exact .inl (by simp [isRoot, hp.parent, he])
    · unfold Placed
      rw [hisRoot (hne hnR), hlisted (hne hnR)]
      exact (h.placed h' m hin).imp id fun hli => ⟨hli, hnR⟩
  · by_cases he : m = n
    · subst he
      exact (hp.chain _ m).mpr (.inl ⟨rfl, hhashn⟩)
    · unfold Placed at hpl
      rw [hisRoot he, hlisted he] at hpl
      rw [hhash he]
      refine (hp.chain _ m).mpr (.inr ⟨?_, ?_⟩)
      · exact h.chained m (hp.older m hm he) (fun hd => hm' ((hdes he).mpr hd)) (hpl.imp id And.left)
      · rcases hpl with hr | ⟨_, hr⟩
        · exact fun hR' => by simp [hR m he hR'] at hr
        · exact hr
  · rcases (hp.entry d e).mp he with ⟨_, rfl, rfl⟩ | ⟨hin, hnR⟩
    · exact ⟨hp.lt, hp.parent, hp.name⟩
    · have he' := h.entry d e hin
      have hm := hp.node e.2 (hne hnR)
      exact ⟨Nat.lt_of_lt_of_le he'.1 hp.nextInode, hm.1.trans he'.2.1, hm.2.1.trans he'.2.2⟩
  · rcases (hp.entry d e).mp he with ⟨hin, rfl, rfl⟩ | ⟨hin, hnR⟩
    · rcases (hp.entry d e').mp he' with ⟨_, _, rfl⟩ | ⟨hin', hnR'⟩
      · rfl
      · exact absurd hfold.symm (hfree hin e' hin' hnR')
    · rcases (hp.entry d e').mp he' with ⟨hin', rfl, rfl⟩ | ⟨hin', _⟩
      · exact absurd hfold (hfree hin' e hin hnR)
      · exact h.unique d e hin e' hin' hfold
  · by_cases he : m = n
    · subst he
      have hpm : p = m := by
        have h' : (t.node m).parent = m := by simpa [isRoot] using hr
        exact hp.parent.symm.trans h'
      refine ⟨(hroot hpm).1, (hroot hpm).2.imp (fun hk => hp.name.trans hk) hlistedn⟩
    · rw [hisRoot he] at hr
      have hm' := h.root m (hp.older m hm he) hr
      rw [(hp.node m he).2.2.1, (hp.node m he).2.1, hlisted he]
      refine ⟨hm'.1, hm'.2.imp id fun hli => ⟨hli, fun hR' => ?_⟩⟩
      simp [hR m he hR'] at hr

end Indexed

end FS

end JsFs
