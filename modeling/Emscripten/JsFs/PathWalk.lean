-- SUMMARY: Path resolution over any tree of nodes: each turn of the loop ends, starts over at a shorter path, or uses up one of 40 links.
import Emscripten.JsFs.Lookup

/-!
# Path walks

`FS.lookupPath` asks the nodes for everything that it needs to know, and each type of file system has its own
nodes. Whatever they answer, the loop ends: a ".." in a root leads to a path of fewer parts, and there are 40
links.
-/

namespace JsFs

/-! ## Parts of paths -/

variable {path : Path}

namespace Path

theorem parts_slash (a b : Path) : parts (a ++ '/' :: b) = parts a ++ parts b := by
  unfold parts
  rw [List.splitOn_append_cons_self, List.filter_append]

@[simp] theorem parts_nil : parts [] = [] := rfl

@[simp] theorem parts_cons_slash (b : Path) : parts ('/' :: b) = parts b := parts_slash [] b

/-- A part is not empty and has no slash in it. -/
def IsPart (p : Name) : Prop := p ≠ [] ∧ '/' ∉ p

theorem parts_of_isPart {p : Name} (h : IsPart p) : parts p = [p] := by
  unfold parts
  rw [List.splitOn_eq_singleton h.2]
  simp [h.1]

theorem not_mem_of_mem_splitOn {p : Path} (h : p ∈ path.splitOn '/') : '/' ∉ p := by
  induction path generalizing p with
  | nil =>
    obtain rfl : p = [] := by simpa using h
    simp
  | cons c path ih =>
    rw [List.splitOn_cons_eq_if_modifyHead] at h
    split at h
    · obtain rfl | h := List.mem_cons.mp h
      · simp
      · exact ih h
    · rename_i hc
      obtain ⟨q, qs, hq⟩ := List.exists_cons_of_ne_nil (List.splitOn_ne_nil '/' path)
      rw [hq, List.modifyHead_cons] at h
      obtain rfl | h := List.mem_cons.mp h
      · have hne : ¬ '/' = c := fun heq => hc (by simp [heq.symm])
        have hnot : '/' ∉ q := ih (by simp [hq])
        simp [hne, hnot]
      · exact ih (by simp [hq, h])

theorem isPart_of_mem_parts {p : Name} (h : p ∈ parts path) : IsPart p := by
  obtain ⟨hmem, hne⟩ := List.mem_filter.mp h
  exact ⟨by simpa using hne, not_mem_of_mem_splitOn hmem⟩

/-- Parts that are joined are taken apart again. -/
theorem parts_join {l : List Name} (h : ∀ p ∈ l, IsPart p) : parts (join l) = l := by
  unfold join
  cases l with
  | nil => rfl
  | cons p l =>
    unfold parts
    rw [List.splitOn_intercalate '/' (fun q hq => (h q hq).2) (by simp)]
    apply List.filter_eq_self.mpr
    intro q hq
    simpa using (h q hq).1

theorem foldr_normalizePart (ps : List Name) :
    (ps.foldr normalizePart ([], 0)).1.length ≤ ps.length ∧ ∀ p ∈ (ps.foldr normalizePart ([], 0)).1, p ∈ ps := by
  induction ps with
  | nil => simp
  | cons q ps ih =>
    obtain ⟨hlen, hmem⟩ := ih
    have hkept : (normalizePart q (ps.foldr normalizePart ([], 0))).1 = (ps.foldr normalizePart ([], 0)).1 ∨
        (normalizePart q (ps.foldr normalizePart ([], 0))).1 = q :: (ps.foldr normalizePart ([], 0)).1 := by
      unfold normalizePart
      split
      · exact Or.inl rfl
      split
      · exact Or.inl rfl
      split
      · exact Or.inr rfl
      · exact Or.inl rfl
    rw [List.foldr_cons]
    obtain hkept | hkept := hkept
    · rw [hkept]
      exact ⟨Nat.le_succ_of_le hlen, fun p hp => List.mem_cons_of_mem _ (hmem p hp)⟩
    · rw [hkept]
      refine ⟨Nat.succ_le_succ hlen, fun p hp => ?_⟩
      obtain rfl | hp := List.mem_cons.mp hp
      · exact List.mem_cons_self
      · exact List.mem_cons_of_mem _ (hmem p hp)

theorem isAbs_cons (path : Path) : isAbs ('/' :: path) = true := rfl

theorem exists_of_isAbs (h : isAbs path = true) : ∃ rest, path = '/' :: rest := by
  cases path with
  | nil => cases h
  | cons c rest =>
    obtain rfl : c = '/' := by simpa [isAbs] using h
    exact ⟨rest, rfl⟩

/-- An absolute path does not get longer when it is normalized. -/
theorem parts_normalize_le (h : isAbs path = true) :
    isAbs (normalize path) = true ∧ (parts (normalize path)).length ≤ (parts path).length := by
  obtain ⟨hlen, hmem⟩ := foldr_normalizePart (parts path)
  have hjoin := parts_join fun p hp => isPart_of_mem_parts (hmem p hp)
  unfold normalize normalizeArray
  simp only [h, Bool.not_true, Bool.false_eq_true, and_false, if_false, if_true]
  generalize (parts path).foldr normalizePart ([], 0) = r at *
  refine ⟨rfl, ?_⟩
  rw [List.singleton_append, parts_cons_slash]
  split
  · rw [parts_slash, parts_nil, List.append_nil, hjoin]
    exact hlen
  · rw [hjoin]
    exact hlen

/-- A name is one more part at most. -/
theorem parts_join2_le {l r : Path} (h : isAbs l = true) (hr : IsPart r) :
    isAbs (join2 l r) = true ∧ (parts (join2 l r)).length ≤ (parts l).length + 1 := by
  obtain ⟨rest, rfl⟩ := exists_of_isAbs h
  obtain ⟨habs, hle⟩ := parts_normalize_le (isAbs_cons (rest ++ '/' :: r))
  refine ⟨habs, Nat.le_trans hle ?_⟩
  rw [parts_cons_slash, parts_cons_slash, parts_slash, parts_of_isPart hr, List.length_append]
  exact Nat.le_refl _

theorem stripSlashes_append (path : Path) : ∃ slashes, path = stripSlashes path ++ slashes := by
  refine ⟨(path.reverse.takeWhile (· = '/')).reverse, ?_⟩
  unfold stripSlashes
  rw [← List.reverse_append, List.takeWhile_append_dropWhile, List.reverse_reverse]

/-- The directory of an absolute path is the root, or what is in front of a slash of the path. -/
theorem dirname_of_isAbs (h : isAbs path = true) :
    dirname path = ['/'] ∨ ∃ rest, path = dirname path ++ '/' :: rest ∧ isAbs (dirname path) = true := by
  obtain ⟨c, rfl⟩ := exists_of_isAbs h
  obtain ⟨slashes, hc⟩ := stripSlashes_append c
  obtain ⟨base, hrest⟩ : ∃ base, stripSlashes c =
      ((stripSlashes c).reverse.dropWhile (· ≠ '/')).reverse ++ base := by
    refine ⟨((stripSlashes c).reverse.takeWhile (· ≠ '/')).reverse, ?_⟩
    rw [← List.reverse_append, List.takeWhile_append_dropWhile, List.reverse_reverse]
  have hdirname : dirname ('/' :: c) =
      '/' :: ((stripSlashes c).reverse.dropWhile (· ≠ '/')).reverse.dropLast := by
    unfold dirname
    simp [h]
  rw [hdirname]
  have hhead := List.head?_dropWhile_not (fun d => decide (d ≠ '/')) (stripSlashes c).reverse
  generalize (stripSlashes c).reverse.dropWhile (· ≠ '/') = rdir at *
  cases rdir with
  | nil => exact Or.inl rfl
  | cons d rdir =>
    obtain rfl : d = '/' := by simpa using hhead
    refine Or.inr ⟨base ++ slashes, ?_, rfl⟩
    rw [hrest] at hc
    rw [hc]
    simp

/-- A directory's path does not get longer. -/
theorem parts_dirname_le (h : isAbs path = true) :
    isAbs (dirname path) = true ∧ (parts (dirname path)).length ≤ (parts path).length := by
  obtain hroot | ⟨rest, hpath, habs⟩ := dirname_of_isAbs h
  · rw [hroot]
    exact ⟨rfl, Nat.zero_le _⟩
  · refine ⟨habs, ?_⟩
    conv_rhs => rw [hpath]
    rw [parts_slash, List.length_append]
    exact Nat.le_add_right _ _

end Path

/-! ## Trees -/

/-- What nodes of any types of file systems answer. `σ` is the state, which a lookup may change. -/
structure Tree (σ ν : Type) where
  root : ν
  /-- `node === node.parent` -/
  isRoot : σ → ν → Bool
  parent : σ → ν → ν
  lookupNode : ν → Name → σ → σ × Except Errno ν
  /-- `node.mounted.root`, where something is mounted. -/
  mounted : σ → ν → Option ν
  isLink : σ → ν → Bool
  /-- An error where the type has no such operation. -/
  readlink : ν → σ → σ × Except Errno Path

namespace Tree

open Path
open FS (LookupOpts SYMLOOP_MAX linkPath)

variable {σ ν : Type} (T : Tree σ ν) (o : LookupOpts)

/-- How a walk ends: with a result, or with another path to walk. -/
inductive Walk (ν : Type)
  | done (result : Except Errno (Path × Option ν))
  | up (path : Path)
  | link (path : Path)

/-- The loop over the parts of a path. -/
def walk : List Name → Path → ν → σ → σ × Walk ν
  | [], current_path, current, s => (s, .done (.ok (current_path, some current)))
  | p :: rest, current_path, current, s =>
    let islast := rest.isEmpty
    if islast ∧ o.parent then (s, .done (.ok (current_path, some current)))
    else if p = dot then walk rest current_path current s
    else if p = dotDot then
      let current_path := dirname current_path
      if T.isRoot s current then (s, .up (current_path ++ '/' :: join rest))
      else walk rest current_path (T.parent s current) s
    else
      let current_path := join2 current_path p
      match T.lookupNode current p s with
      | (s, .error e) =>
        if e = .ENOENT ∧ islast ∧ o.noent_okay then (s, .done (.ok (current_path, none)))
        else (s, .done (.error e))
      | (s, .ok child) =>
        let child := if !islast ∨ o.follow_mount then (T.mounted s child).getD child else child
        if T.isLink s child ∧ (!islast ∨ o.follow) then
          match T.readlink child s with
          | (s, .error e) => (s, .done (.error e))
          | (s, .ok link) => (s, .link (linkPath current_path link rest))
        else walk rest current_path child s

/-- The state of `linkloop` at the head of a turn. -/
structure Loop (σ : Type) where
  nlinks : Int
  path : Path
  state : σ

/-- Why a turn started over. -/
inductive Restart
  | up
  | link
deriving DecidableEq

/-- One turn of `linkloop`: a result, or the next turn. Each `continue` adds one to `nlinks`. -/
def turn (l : Loop σ) : (σ × Except Errno (Path × Option ν)) ⊕ (Restart × Loop σ) :=
  if l.nlinks < SYMLOOP_MAX then
    match T.walk o (parts l.path) ['/'] T.root l.state with
    | (s, .done r) => .inl (s, r)
    | (s, .up path) => .inr (.up, ⟨l.nlinks - 1 + 1, path, s⟩)
    | (s, .link path) => .inr (.link, ⟨l.nlinks + 1, path, s⟩)
  else .inl (l.state, .error .ELOOP)

/-- The turns of the loop from one on, with why each but the last started over. -/
inductive Runs : Loop σ → List Restart → σ × Except Errno (Path × Option ν) → Prop
  | ended {l r} (h : T.turn o l = .inl r) : Runs l [] r
  | restarts {l k l' ks r} (h : T.turn o l = .inr (k, l')) (hr : Runs l' ks r) : Runs l (k :: ks) r

/-- `FS.lookupPath` returns or throws the result after it has started over so. -/
def Returns (cwd path : Path) (s : σ) (ks : List Restart) (r : σ × Except Errno (Path × Option ν)) : Prop :=
  if path = [] then ks = [] ∧ r = (s, .error .ENOENT)
  else T.Runs o ⟨0, if isAbs path then path else cwd ++ '/' :: path, s⟩ ks r

/-! ## A turn -/

variable {T o}

/-- By induction on the parts: the path of a ".." in a root has fewer parts than were walked. -/
theorem walk_up {ps : List Name} {c : Path} {n : ν} {s s' : σ} (hps : ∀ p ∈ ps, IsPart p) (hc : isAbs c = true)
    (h : T.walk o ps c n s = (s', .up path)) : (parts path).length < (parts c).length + ps.length := by
  induction ps generalizing c n s with
  | nil => simp [walk] at h
  | cons p rest ih =>
    obtain ⟨hp, hrest⟩ := List.forall_mem_cons.mp hps
    rw [List.length_cons]
    unfold walk at h
    dsimp only at h
    by_cases hlast : rest.isEmpty = true ∧ o.parent = true
    · rw [if_pos hlast] at h
      cases h
    rw [if_neg hlast] at h
    by_cases hdot : p = dot
    · rw [if_pos hdot] at h
      exact Nat.lt_succ_of_lt (ih hrest hc h)
    rw [if_neg hdot] at h
    by_cases hup : p = dotDot
    · obtain ⟨hdir, hle⟩ := parts_dirname_le hc
      rw [if_pos hup] at h
      by_cases hroot : T.isRoot s n = true
      · -- the rest stays, and the ".." is gone
        rw [if_pos hroot] at h
        obtain rfl : dirname c ++ '/' :: join rest = path := by simpa using congrArg Prod.snd h
        rw [parts_slash, parts_join hrest, List.length_append]
        omega
      · rw [if_neg hroot] at h
        have := ih hrest hdir h
        omega
    rw [if_neg hup] at h
    obtain ⟨hjoin, hle⟩ := parts_join2_le hc hp
    split at h
    · split at h
      · cases h
      · cases h
    · rename_i child _
      generalize (if (!rest.isEmpty) = true ∨ o.follow_mount = true then _ else child) = child' at h
      split at h
      · split at h
        · cases h
        · cases h
      · have := ih hrest hjoin h
        omega

variable {l : Loop σ}

/-- A ".." in a root starts over at a shorter path, and with the same number of links. -/
theorem turn_up {l' : Loop σ} (h : T.turn o l = .inr (.up, l')) :
    l'.nlinks = l.nlinks ∧ (parts l'.path).length < (parts l.path).length := by
  unfold turn at h
  split at h
  · split at h
    · cases h
    · rename_i s path hw
      cases h
      refine ⟨by dsimp only; omega, ?_⟩
      have hlt := walk_up (fun p hp => isPart_of_mem_parts hp) rfl hw
      simpa using hlt
    · cases h
  · cases h

theorem turn_link {l' : Loop σ} (h : T.turn o l = .inr (.link, l')) :
    l.nlinks < SYMLOOP_MAX ∧ l'.nlinks = l.nlinks + 1 := by
  unfold turn at h
  split at h
  · rename_i hlt
    split at h
    · cases h
    · cases h
    · cases h
      exact ⟨hlt, rfl⟩
  · cases h

theorem turn_limit (h : SYMLOOP_MAX ≤ l.nlinks) : T.turn o l = .inl (l.state, .error .ELOOP) := by
  unfold turn
  exact if_neg (by omega)

/-! ## The loop -/

/-- From every turn the loop comes to an end. The links that are left decrease, or they stay and the path gets
shorter. -/
theorem runs_exist (l : Loop σ) : ∃ ks r, T.Runs o l ks r := by
  cases h : T.turn o l with
  | inl r => exact ⟨[], r, .ended h⟩
  | inr next =>
    obtain ⟨k, l'⟩ := next
    have hless : Prod.Lex (· < ·) (· < ·) ((SYMLOOP_MAX - l'.nlinks).toNat, (parts l'.path).length)
        ((SYMLOOP_MAX - l.nlinks).toNat, (parts l.path).length) := by
      cases k with
      | up =>
        obtain ⟨heq, hlt⟩ := turn_up h
        rw [heq]
        exact .right _ hlt
      | link =>
        obtain ⟨hlt, heq⟩ := turn_link h
        exact .left _ _ (by omega)
    obtain ⟨ks, r, hr⟩ := runs_exist l'
    exact ⟨k :: ks, r, .restarts h hr⟩
termination_by ((SYMLOOP_MAX - l.nlinks).toNat, (parts l.path).length)
decreasing_by exact hless

theorem Runs.unique {ks ks' : List Restart} {r r' : σ × Except Errno (Path × Option ν)} (h : T.Runs o l ks r)
    (h' : T.Runs o l ks' r') : ks' = ks ∧ r' = r := by
  induction h generalizing ks' with
  | ended h =>
    cases h' with
    | ended h' => exact ⟨rfl, Sum.inl.inj (h'.symm.trans h)⟩
    | restarts h' _ => cases h.symm.trans h'
  | restarts h _ ih =>
    cases h' with
    | ended h' => cases h.symm.trans h'
    | restarts h' hr' =>
      cases h.symm.trans h'
      obtain ⟨rfl, rfl⟩ := ih hr'
      exact ⟨rfl, rfl⟩

/-- As many links as are left, and then the loop ends with an error. -/
theorem Runs.links_le {ks : List Restart} {r : σ × Except Errno (Path × Option ν)} (h : T.Runs o l ks r)
    (hl : l.nlinks ≤ SYMLOOP_MAX) :
    l.nlinks + ks.count .link ≤ SYMLOOP_MAX ∧
      (l.nlinks + ks.count .link = SYMLOOP_MAX → r.2 = .error .ELOOP) := by
  induction h with
  | @ended l r h =>
    refine ⟨by simpa using hl, fun hlimit => ?_⟩
    rw [turn_limit (by simp at hlimit; omega)] at h
    cases h
    rfl
  | @restarts l k l' ks r h _ ih =>
    cases k with
    | up =>
      obtain ⟨heq, -⟩ := turn_up h
      rw [heq] at ih
      simpa using ih hl
    | link =>
      obtain ⟨hlt, heq⟩ := turn_link h
      rw [heq] at ih
      obtain ⟨hle, hlimit⟩ := ih (by omega)
      rw [List.count_cons_self]
      exact ⟨by omega, fun h => hlimit (by omega)⟩

/-- `FS.lookupPath` comes to one result, after at most 40 links, and after 40 it throws `ELOOP`. A ".." that starts
over counts as no link. -/
theorem lookupPath_terminates (T : Tree σ ν) (o : LookupOpts) (cwd path : Path) (s : σ) :
    (∃ ks r, T.Returns o cwd path s ks r ∧ ks.count .link ≤ 40 ∧
      (ks.count .link = 40 → r.2 = .error .ELOOP) ∧
      ∀ ks' r', T.Returns o cwd path s ks' r' → ks' = ks ∧ r' = r) ∧
    ∀ l l', T.turn o l = .inr (.up, l') → l'.nlinks = l.nlinks := by
  refine ⟨?_, fun l l' h => (turn_up h).1⟩
  unfold Returns
  split
  · exact ⟨[], _, ⟨rfl, rfl⟩, by simp, by simp, fun _ _ h => h⟩
  · obtain ⟨ks, r, hr⟩ := runs_exist (T := T) (o := o) ⟨0, if isAbs path then path else cwd ++ '/' :: path, s⟩
    obtain ⟨hle, hlimit⟩ := hr.links_le (Int.natCast_nonneg SYMLOOP_MAX)
    simp only [SYMLOOP_MAX] at hle hlimit
    exact ⟨ks, r, hr, by omega, fun h => hlimit (by omega), fun _ _ h => hr.unique h⟩

end Tree

/-! ## The nodes of a state -/

namespace FS

open Tree (Runs)

variable [Build] (s : FS)

variable {s} {o : LookupOpts}

end FS

end JsFs
