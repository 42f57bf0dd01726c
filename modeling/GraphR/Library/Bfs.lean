import Mathlib.Tactic
import Mathlib.Order.Bounds.Basic

/-! # Breadth-first search with a visitor

    Level by level from a root: every edge of the frontier is offered once, a node
    not seen before is found, and the visitor says whether the search goes on past
    it. A value is carried along the path a node was found by.

    `Tree` is what the list of found nodes keeps, `Level` what one level keeps, and
    `run_breadthFirst` that a node is found at its distance. -/

namespace BfsLib

/-- One node found: from where, along which edge, how many edges from the root,
    and the value carried so far. -/
structure Found (α ε τ : Type) where
  key : α
  src : α
  edge : ε
  depth : Nat
  tag : τ

/-- Nodes seen, the next frontier, the nodes found so far. -/
structure State (α ε τ : Type) where
  seen : List α
  next : List (α × τ)
  found : List (Found α ε τ)

/-- What a search is run on. The visitor's answer may depend on everything found
    before. -/
structure Search (α ε τ : Type) where
  succ : α → List (α × ε)
  extend : τ → ε → τ
  visit : List (Found α ε τ) → Found α ε τ → Bool
  root : α
  tag : τ

namespace Search

variable {α ε τ : Type} [DecidableEq α] (g : Search α ε τ)

/-! ## The search -/

/-- Offer one edge of `node`. -/
def offer (depth : Nat) (node : α × τ) (w : State α ε τ) (e : α × ε) : State α ε τ :=
  if e.1 ∈ w.seen then w
  else
    let f : Found α ε τ := ⟨e.1, node.1, e.2, depth, g.extend node.2 e.2⟩
    { seen := e.1 :: w.seen
      next := if g.visit w.found f then w.next ++ [(e.1, f.tag)] else w.next
      found := w.found ++ [f] }

/-- Offer every edge of `node`. -/
def expand (depth : Nat) (w : State α ε τ) (node : α × τ) : State α ε τ :=
  (g.succ node.1).foldl (g.offer depth node) w

/-- The levels from `depth` on, `left` of them. -/
def levels : Nat → Nat → State α ε τ → List (α × τ) → State α ε τ
  | 0, _, w, _ => w
  | left + 1, depth, w, frontier =>
    let w := frontier.foldl (g.expand depth) { w with next := [] }
    if w.next.isEmpty then w else levels left (depth + 1) w w.next

/-- The nodes found within `maxDepth` edges of the root, in order. -/
def run (maxDepth : Nat) : List (Found α ε τ) :=
  (g.levels maxDepth 1 ⟨[g.root], [], []⟩ [(g.root, g.tag)]).found

/-! ## What it is for -/

/-- The visitor said to go on past `k`. -/
def Passed (found : List (Found α ε τ)) (k : α) : Prop :=
  ∃ pre f post, found = pre ++ f :: post ∧ g.visit pre f = true ∧ f.key = k

/-- A path of `n` edges from the root, through nodes passed. -/
inductive Path (found : List (Found α ε τ)) : Nat → α → Prop where
  | root : Path found 0 g.root
  | step {n : Nat} {u v : α} {e : ε} (h : Path found n u) (hu : u = g.root ∨ g.Passed found u)
      (hmem : (v, e) ∈ g.succ u) : Path found (n + 1) v

/-- The search goes on from `k`, at distance `d`, carrying `t`. -/
inductive Open (found : List (Found α ε τ)) : Nat → α → τ → Prop where
  | root : Open found 0 g.root g.tag
  | past {pre post : List (Found α ε τ)} {f : Found α ε τ} (h : found = pre ++ f :: post)
      (hv : g.visit pre f = true) : Open found f.depth f.key f.tag

/-- The edges back to the root, newest first. -/
inductive Chain (found : List (Found α ε τ)) : α → List ε → Prop where
  | root : Chain found g.root []
  | link {f : Found α ε τ} {es : List ε} (hf : f ∈ found) (h : Chain found f.src es) :
      Chain found f.key (f.edge :: es)

/-- Found at most once, never the root, nearest first, and each from an open node
    one edge up, along the first of its edges that leads there. -/
structure Tree (found : List (Found α ε τ)) : Prop where
  nodup : (g.root :: found.map Found.key).Nodup
  sorted : found.Pairwise fun a b => a.depth ≤ b.depth
  linked : ∀ f ∈ found, ∃ d t, g.Open found d f.src t ∧ f.depth = d + 1 ∧
    f.tag = g.extend t f.edge ∧
    (g.succ f.src).find? (fun e => e.1 = f.key) = some (f.key, f.edge)

/-- The tree, with every node within `max` edges in it at its distance. -/
structure BreadthFirst (max : Nat) (found : List (Found α ε τ)) : Prop where
  tree : g.Tree found
  exact : ∀ k d, (∃ f ∈ found, f.key = k ∧ f.depth = d) ↔
    k ≠ g.root ∧ d ≤ max ∧ IsLeast {n | g.Path found n k} d

variable {g} {found new : List (Found α ε τ)} {d n : Nat} {k : α} {t : τ}

/-! ## Open nodes -/

omit [DecidableEq α] in
theorem Open.append (h : g.Open found d k t) : g.Open (found ++ new) d k t := by
  cases h with
  | root => exact .root
  | past h hv => exact .past (by rw [h, List.append_assoc, List.cons_append]) hv

omit [DecidableEq α] in
/-- What a found node adds to the open ones. -/
theorem open_snoc {f : Found α ε τ} : g.Open (found ++ [f]) d k t ↔
    g.Open found d k t ∨ (g.visit found f = true ∧ d = f.depth ∧ k = f.key ∧ t = f.tag) := by
  constructor
  · intro h
    cases h with
    | root => exact .inl .root
    | @past pre post f' h hv =>
      rcases List.append_eq_append_iff.mp h with ⟨mid, rfl, hmid⟩ | ⟨mid, hfound, hmid⟩
      · -- the new node is the one passed
        cases mid with
        | nil =>
          rw [List.nil_append, List.cons.injEq] at hmid
          rw [List.append_nil] at hv
          obtain ⟨rfl, -⟩ := hmid
          exact .inr ⟨hv, rfl, rfl, rfl⟩
        | cons a mid =>
          have := congrArg List.length hmid
          simp at this
      · cases mid with
        | nil =>
          rw [List.nil_append, List.cons.injEq] at hmid
          rw [List.append_nil] at hfound
          subst hfound
          obtain ⟨rfl, -⟩ := hmid
          exact .inr ⟨hv, rfl, rfl, rfl⟩
        | cons a mid =>
          rw [List.cons_append, List.cons.injEq] at hmid
          obtain ⟨rfl, -⟩ := hmid
          exact .inl (.past hfound hv)
  · rintro (h | ⟨hv, rfl, rfl, rfl⟩)
    · exact h.append
    · exact .past rfl hv

omit [DecidableEq α] in
/-- Nodes found deeper open nothing at `d`. -/
theorem Open.of_append (h : g.Open (found ++ new) d k t) (hnew : ∀ f ∈ new, d < f.depth) :
    g.Open found d k t := by
  induction new using List.reverseRecOn with
  | nil => rwa [List.append_nil] at h
  | append_singleton new f ih =>
    rw [← List.append_assoc, open_snoc] at h
    rcases h with h | ⟨-, hd, -, -⟩
    · exact ih h fun f' hf' => hnew f' (List.mem_append_left _ hf')
    · exact absurd (hnew f (by simp)) (by omega)

omit [DecidableEq α] in
theorem Open.depth_pos_or (h : g.Open found d k t) :
    (d = 0 ∧ k = g.root ∧ t = g.tag) ∨
      ∃ f ∈ found, f.depth = d ∧ f.key = k ∧ f.tag = t := by
  cases h with
  | root => exact .inl ⟨rfl, rfl, rfl⟩
  | @past pre post f h hv => exact .inr ⟨f, by rw [h]; simp, rfl, rfl, rfl⟩

omit [DecidableEq α] in
theorem Open.passed (h : g.Open found d k t) : k = g.root ∨ g.Passed found k := by
  cases h with
  | root => exact .inl rfl
  | past h hv => exact .inr ⟨_, _, _, h, hv, rfl⟩

/-! ## Levels -/

/-- `k` is within `n` edges, as far as the search knows. -/
def Reached (g : Search α ε τ) (found : List (Found α ε τ)) (n : Nat) (k : α) : Prop :=
  k = g.root ∨ ∃ f ∈ found, f.key = k ∧ f.depth ≤ n

/-- The edges of every open node nearer than `n` have been offered in time. -/
def ClosedTo (g : Search α ε τ) (found : List (Found α ε τ)) (n : Nat) : Prop :=
  ∀ d k t, d < n → g.Open found d k t → ∀ e ∈ g.succ k, g.Reached found (d + 1) e.1

/-- The state inside the level whose nodes are found at `d + 1`. -/
structure Level (g : Search α ε τ) (d : Nat) (w : State α ε τ) : Prop where
  tree : g.Tree w.found
  seen : ∀ k, k ∈ w.seen ↔ k = g.root ∨ ∃ f ∈ w.found, f.key = k
  depth : ∀ f ∈ w.found, f.depth ≤ d + 1
  next : ∀ k t, (k, t) ∈ w.next ↔ g.Open w.found (d + 1) k t

/-- Only nodes at `d + 1` are found on the way from `w` to `w'`. -/
def Grows (d : Nat) (w w' : State α ε τ) : Prop :=
  ∃ new, w'.found = w.found ++ new ∧ ∀ f ∈ new, f.depth = d + 1

omit [DecidableEq α] in
theorem Grows.refl (w : State α ε τ) : Grows d w w := ⟨[], by simp, by simp⟩

omit [DecidableEq α] in
theorem Grows.trans {w₁ w₂ w₃ : State α ε τ} (h : Grows d w₁ w₂) (h' : Grows d w₂ w₃) :
    Grows d w₁ w₃ := by
  obtain ⟨new, hfound, hnew⟩ := h
  obtain ⟨new', hfound', hnew'⟩ := h'
  refine ⟨new ++ new', by rw [hfound', hfound, List.append_assoc], ?_⟩
  intro f hf
  rcases List.mem_append.mp hf with hf | hf
  · exact hnew f hf
  · exact hnew' f hf

variable {w w' : State α ε τ}

omit [DecidableEq α] in
theorem Open.grows (h : Grows d w w') (ho : g.Open w.found n k t) : g.Open w'.found n k t := by
  obtain ⟨new, hfound, -⟩ := h
  rw [hfound]
  exact ho.append

omit [DecidableEq α] in
theorem Open.of_grows (h : Grows d w w') (hn : n ≤ d) (ho : g.Open w'.found n k t) :
    g.Open w.found n k t := by
  obtain ⟨new, hfound, hnew⟩ := h
  rw [hfound] at ho
  refine ho.of_append ?_
  intro f hf
  have := hnew f hf
  omega

omit [DecidableEq α] in
theorem ClosedTo.grows (h : Grows d w w') (hn : n ≤ d) (hc : g.ClosedTo w.found n) :
    g.ClosedTo w'.found n := by
  intro d' k t hd' ho e he
  rcases hc d' k t hd' (ho.of_grows h (by omega)) e he with hroot | ⟨f, hf, hkey, hdepth⟩
  · exact .inl hroot
  · obtain ⟨new, hfound, -⟩ := h
    exact .inr ⟨f, by rw [hfound]; exact List.mem_append_left _ hf, hkey, hdepth⟩

/-- Offering one edge: the level is kept, and the edge's end is seen. -/
theorem Level.offer {node e : α × _} {pre post : List (α × ε)} (h : g.Level d w)
    (ho : g.Open w.found d node.1 node.2) (hsucc : g.succ node.1 = pre ++ e :: post)
    (hpre : ∀ e' ∈ pre, e'.1 ∈ w.seen) :
    g.Level d (g.offer (d + 1) node w e) ∧ Grows d w (g.offer (d + 1) node w e) ∧
      e.1 ∈ (g.offer (d + 1) node w e).seen ∧
      ∀ k ∈ w.seen, k ∈ (g.offer (d + 1) node w e).seen := by
  unfold Search.offer
  by_cases hmem : e.1 ∈ w.seen
  · rw [if_pos hmem]
    exact ⟨h, .refl w, hmem, fun _ hk => hk⟩
  rw [if_neg hmem]
  have hnew := fun hor => hmem ((h.seen e.1).mpr hor)
  refine ⟨⟨⟨?_, ?_, ?_⟩, ?_, ?_, ?_⟩, ⟨_, rfl, by simp⟩, by simp, fun k hk => by simp [hk]⟩
  · -- the new key was not among the old ones
    have hnodup := h.tree.nodup
    simp only [List.map_append, List.map_cons, List.map_nil]
    rw [← List.cons_append, List.nodup_append]
    refine ⟨hnodup, by simp, ?_⟩
    intro a ha b hb hab
    rw [List.mem_singleton] at hb
    subst hb
    subst hab
    rcases List.mem_cons.mp ha with hroot | ha
    · exact hnew (.inl hroot)
    · obtain ⟨f, hf, hkey⟩ := List.mem_map.mp ha
      exact hnew (.inr ⟨f, hf, hkey⟩)
  · rw [List.pairwise_append]
    refine ⟨h.tree.sorted, by simp, ?_⟩
    intro a ha b hb
    rw [List.mem_singleton] at hb
    subst hb
    exact h.depth a ha
  · intro f hf
    rcases List.mem_append.mp hf with hf | hf
    · obtain ⟨d', t, hopen, hrest⟩ := h.tree.linked f hf
      exact ⟨d', t, hopen.append, hrest⟩
    · rw [List.mem_singleton] at hf
      subst hf
      refine ⟨d, node.2, ho.append, rfl, rfl, ?_⟩
      -- the edges before it lead to nodes already seen
      rw [hsucc, List.find?_append, List.find?_eq_none.mpr, Option.none_or, List.find?_cons_of_pos]
      · simp
      · intro e' he'
        simp only [decide_eq_true_eq]
        intro heq
        exact hmem (heq ▸ hpre e' he')
  · intro k
    simp only [List.mem_cons, h.seen k, List.mem_append, List.not_mem_nil, or_false]
    constructor
    · rintro (rfl | hroot | ⟨f, hf, hkey⟩)
      · exact .inr ⟨_, .inr rfl, rfl⟩
      · exact .inl hroot
      · exact .inr ⟨f, .inl hf, hkey⟩
    · rintro (hroot | ⟨f, hf | rfl, hkey⟩)
      · exact .inr (.inl hroot)
      · exact .inr (.inr ⟨f, hf, hkey⟩)
      · exact .inl hkey.symm
  · intro f hf
    rcases List.mem_append.mp hf with hf | hf
    · exact h.depth f hf
    · rw [List.mem_singleton] at hf
      subst hf
      exact le_rfl
  · intro k t
    rw [open_snoc, ← h.next k t]
    dsimp only
    split_ifs with hv
    · simp [hv]
    · simp [hv]

/-- Expanding an open node: all its edges have been offered. -/
theorem Level.expand {node : α × τ} (h : g.Level d w) (ho : g.Open w.found d node.1 node.2) :
    g.Level d (g.expand (d + 1) w node) ∧ Grows d w (g.expand (d + 1) w node) ∧
      (∀ e ∈ g.succ node.1, e.1 ∈ (g.expand (d + 1) w node).seen) ∧
      ∀ k ∈ w.seen, k ∈ (g.expand (d + 1) w node).seen := by
  -- induction on the edges still to offer, those before them being seen
  have hrest : ∀ (post pre : List (α × ε)) (w : State α ε τ), g.succ node.1 = pre ++ post →
      g.Level d w → g.Open w.found d node.1 node.2 → (∀ e ∈ pre, e.1 ∈ w.seen) →
      g.Level d (post.foldl (g.offer (d + 1) node) w) ∧
        Grows d w (post.foldl (g.offer (d + 1) node) w) ∧
        (∀ e ∈ post, e.1 ∈ (post.foldl (g.offer (d + 1) node) w).seen) ∧
        ∀ k ∈ w.seen, k ∈ (post.foldl (g.offer (d + 1) node) w).seen := by
    intro post
    induction post with
    | nil =>
      intro pre w _ h _ _
      exact ⟨h, .refl w, by simp, fun _ hk => hk⟩
    | cons e post ih =>
      intro pre w hsucc h ho hpre
      obtain ⟨hlevel, hgrows, hseen, hkeep⟩ := h.offer ho hsucc hpre
      obtain ⟨hlevel', hgrows', hseen', hkeep'⟩ := ih (pre ++ [e]) (g.offer (d + 1) node w e)
        (by rw [hsucc, List.append_assoc, List.singleton_append]) hlevel (ho.grows hgrows) (by
          intro e' he'
          rcases List.mem_append.mp he' with he' | he'
          · exact hkeep _ (hpre e' he')
          · rw [List.mem_singleton.mp he']
            exact hseen)
      rw [List.foldl_cons]
      refine ⟨hlevel', hgrows.trans hgrows', ?_, fun k hk => hkeep' k (hkeep k hk)⟩
      intro e' he'
      rcases List.mem_cons.mp he' with rfl | he'
      · exact hkeep' _ hseen
      · exact hseen' e' he'
  exact hrest _ [] w rfl h ho (by simp)

/-- One level: from the open nodes at `d`, everything at `d + 1`. -/
theorem Level.frontier {frontier : List (α × τ)} (h : g.Level d w)
    (ho : ∀ node ∈ frontier, g.Open w.found d node.1 node.2) :
    g.Level d (frontier.foldl (g.expand (d + 1)) w) ∧
      Grows d w (frontier.foldl (g.expand (d + 1)) w) ∧
      (∀ node ∈ frontier, ∀ e ∈ g.succ node.1,
        e.1 ∈ (frontier.foldl (g.expand (d + 1)) w).seen) ∧
      ∀ k ∈ w.seen, k ∈ (frontier.foldl (g.expand (d + 1)) w).seen := by
  induction frontier generalizing w with
  | nil => exact ⟨h, .refl w, by simp, fun _ hk => hk⟩
  | cons node frontier ih =>
    obtain ⟨hlevel, hgrows, hseen, hkeep⟩ := h.expand (ho node (by simp))
    obtain ⟨hlevel', hgrows', hseen', hkeep'⟩ := ih hlevel fun node' hnode' =>
      (ho node' (List.mem_cons_of_mem _ hnode')).grows hgrows
    rw [List.foldl_cons]
    refine ⟨hlevel', hgrows.trans hgrows', ?_, fun k hk => hkeep' k (hkeep k hk)⟩
    intro node' hnode'
    rcases List.mem_cons.mp hnode' with rfl | hnode'
    · intro e he
      exact hkeep' _ (hseen e he)
    · exact hseen' node' hnode'

/-- The state between levels: nodes up to `d` found, their edges not offered. -/
structure Between (g : Search α ε τ) (d : Nat) (w : State α ε τ) (frontier : List (α × τ)) :
    Prop where
  tree : g.Tree w.found
  seen : ∀ k, k ∈ w.seen ↔ k = g.root ∨ ∃ f ∈ w.found, f.key = k
  depth : ∀ f ∈ w.found, f.depth ≤ d
  frontier : ∀ k t, (k, t) ∈ frontier ↔ g.Open w.found d k t
  closed : g.ClosedTo w.found d

theorem Between.level {frontier : List (α × τ)} (h : g.Between d w frontier) :
    g.Between (d + 1) (frontier.foldl (g.expand (d + 1)) { w with next := [] })
      (frontier.foldl (g.expand (d + 1)) { w with next := [] }).next := by
  have hstart : g.Level d { w with next := [] } := by
    refine ⟨h.tree, h.seen, fun f hf => (h.depth f hf).trans (by omega), ?_⟩
    intro k t
    simp only [List.not_mem_nil, false_iff]
    intro ho
    rcases ho.depth_pos_or with ⟨hd, -⟩ | ⟨f, hf, hd, -⟩
    · omega
    · have := h.depth f hf
      omega
  obtain ⟨hlevel, hgrows, hseen, -⟩ :=
    hstart.frontier fun node hnode => (h.frontier node.1 node.2).mp hnode
  refine ⟨hlevel.tree, hlevel.seen, hlevel.depth, hlevel.next, ?_⟩
  intro d' k t hd' ho e he
  by_cases hlt : d' < d
  · exact (h.closed.grows hgrows le_rfl) d' k t hlt ho e he
  · -- a node of this frontier: its edges were just offered, and nothing is deeper yet
    obtain rfl : d' = d := by omega
    have hmem := (h.frontier k t).mpr (ho.of_grows hgrows le_rfl)
    rcases (hlevel.seen e.1).mp (hseen (k, t) hmem e he) with hroot | ⟨f, hf, hkey⟩
    · exact .inl hroot
    · exact .inr ⟨f, hf, hkey, hlevel.depth f hf⟩

/-- All levels: the tree, nothing beyond the last level, every edge within offered
    in time. -/
theorem Between.levels {frontier : List (α × τ)} (left : Nat) (h : g.Between d w frontier) :
    g.Tree (g.levels left (d + 1) w frontier).found ∧
      (∀ f ∈ (g.levels left (d + 1) w frontier).found, f.depth ≤ d + left) ∧
      g.ClosedTo (g.levels left (d + 1) w frontier).found (d + left) := by
  induction left generalizing d w frontier with
  | zero => exact ⟨h.tree, h.depth, h.closed⟩
  | succ left ih =>
    have hnext := h.level
    rw [Search.levels]
    generalize frontier.foldl (g.expand (d + 1)) { w with next := [] } = w' at hnext ⊢
    split_ifs with hempty
    · refine ⟨hnext.tree, fun f hf => (hnext.depth f hf).trans (by omega), ?_⟩
      intro d' k t hd' ho
      by_cases hlt : d' < d + 1
      · exact hnext.closed d' k t hlt ho
      · -- an empty frontier: nothing is open this deep
        rcases ho.depth_pos_or with ⟨hd, -⟩ | ⟨f, hf, hd, -⟩
        · omega
        · have hle := hnext.depth f hf
          obtain rfl : d' = d + 1 := by omega
          have := (hnext.frontier k t).mpr ho
          rw [List.isEmpty_iff.mp hempty] at this
          cases this
    · have hrest := ih hnext
      rwa [show d + 1 + left = d + (left + 1) by omega] at hrest

/-! ## Distances -/

omit [DecidableEq α] in
/-- A found node lies at the end of a path of its depth. -/
theorem Tree.path [DecidableEq α] (h : g.Tree found) : ∀ f ∈ found, g.Path found f.depth f.key := by
  have hall : ∀ n, ∀ f ∈ found, f.depth = n → g.Path found n f.key := by
    intro n
    induction n with
    | zero =>
      intro f hf hd
      obtain ⟨d, t, -, hdepth, -⟩ := h.linked f hf
      omega
    | succ n ih =>
      intro f hf hd
      obtain ⟨d, t, ho, hdepth, -, hfind⟩ := h.linked f hf
      obtain rfl : n = d := by omega
      refine .step ?_ ho.passed (List.mem_of_find?_eq_some hfind)
      rcases ho.depth_pos_or with ⟨rfl, hroot, -⟩ | ⟨p, hp, hpd, hkey, -⟩
      · rw [hroot]
        exact .root
      · rw [← hkey]
        exact ih p hp hpd
  intro f hf
  exact hall f.depth f hf rfl

/-- One node found per key. -/
theorem Tree.unique (h : g.Tree found) {f f' : Found α ε τ} (hf : f ∈ found) (hf' : f' ∈ found)
    (hkey : f.key = f'.key) : f = f' :=
  List.inj_on_of_nodup_map (List.nodup_cons.mp h.nodup).2 hf hf' hkey

theorem Tree.ne_root (h : g.Tree found) {f : Found α ε τ} (hf : f ∈ found) : f.key ≠ g.root := by
  intro heq
  exact (List.nodup_cons.mp h.nodup).1 (heq ▸ List.mem_map_of_mem hf)

/-- Every node at the end of a short path is found in time. -/
theorem reached_of_path {max : Nat} (h : g.Tree found) (hc : g.ClosedTo found max)
    (hp : g.Path found n k) (hn : n ≤ max) : g.Reached found n k := by
  induction hp with
  | root => exact .inl rfl
  | @step n u v e hpath hu hmem ih =>
    -- `u` is open at a depth of at most `n`
    obtain ⟨d, t, hd, ho⟩ : ∃ d t, d ≤ n ∧ g.Open found d u t := by
      rcases hu with rfl | ⟨pre, f, post, hfound, hv, rfl⟩
      · exact ⟨0, g.tag, by omega, .root⟩
      · rcases ih (by omega) with hroot | ⟨f', hf', hkey, hd⟩
        · exact absurd hroot (h.ne_root (by rw [hfound]; simp))
        · have heq := h.unique hf' (by rw [hfound]; simp) hkey
          subst heq
          exact ⟨_, _, hd, .past hfound hv⟩
    rcases hc d u t (by omega) ho (v, e) hmem with hroot | ⟨f, hf, hkey, hdepth⟩
    · exact .inl hroot
    · exact .inr ⟨f, hf, hkey, by omega⟩

theorem breadthFirst_of_closed {max : Nat} (h : g.Tree found) (hdepth : ∀ f ∈ found, f.depth ≤ max)
    (hc : g.ClosedTo found max) : g.BreadthFirst max found := by
  refine ⟨h, ?_⟩
  intro k d
  constructor
  · rintro ⟨f, hf, rfl, rfl⟩
    refine ⟨h.ne_root hf, hdepth f hf, h.path f hf, ?_⟩
    intro n hn
    by_contra hlt
    rw [not_le] at hlt
    rcases reached_of_path h hc hn (hlt.le.trans (hdepth f hf)) with hroot | ⟨f', hf', hkey, hd⟩
    · exact h.ne_root hf hroot
    · rw [h.unique hf' hf hkey] at hd
      omega
  · rintro ⟨hne, hle, hpath, hleast⟩
    rcases reached_of_path h hc hpath hle with hroot | ⟨f, hf, hkey, hd⟩
    · exact absurd hroot hne
    · refine ⟨f, hf, hkey, le_antisymm hd (hleast ?_)⟩
      rw [← hkey]
      exact h.path f hf

theorem run_breadthFirst (g : Search α ε τ) (max : Nat) : g.BreadthFirst max (g.run max) := by
  have hstart : g.Between 0 ⟨[g.root], [], []⟩ [(g.root, g.tag)] := by
    refine ⟨⟨by simp, by simp, by simp⟩, by simp, by simp, ?_, ?_⟩
    · intro k t
      simp only [List.mem_singleton, Prod.mk.injEq]
      constructor
      · rintro ⟨rfl, rfl⟩
        exact .root
      · intro ho
        rcases ho.depth_pos_or with ⟨-, hk, ht⟩ | ⟨f, hf, -⟩
        · exact ⟨hk, ht⟩
        · cases hf
    · intro d k t hd
      omega
  obtain ⟨htree, hdepth, hclosed⟩ := hstart.levels max
  rw [show 0 + max = max by omega] at hclosed
  exact breadthFirst_of_closed htree (fun f hf => (hdepth f hf).trans (by omega)) hclosed

/-! ## Chains -/

/-- Every found node has its chain. -/
theorem Tree.exists_chain (h : g.Tree found) : ∀ f ∈ found, ∃ es, g.Chain found f.key es := by
  have hall : ∀ n, ∀ f ∈ found, f.depth ≤ n → ∃ es, g.Chain found f.key es := by
    intro n
    induction n with
    | zero =>
      intro f hf hd
      obtain ⟨d, t, -, hdepth, -⟩ := h.linked f hf
      omega
    | succ n ih =>
      intro f hf hd
      obtain ⟨d, t, ho, hdepth, -⟩ := h.linked f hf
      rcases ho.depth_pos_or with ⟨-, hroot, -⟩ | ⟨p, hp, hpd, hkey, -⟩
      · refine ⟨[f.edge], .link hf ?_⟩
        rw [hroot]
        exact .root
      · obtain ⟨es, hes⟩ := ih p hp (by omega)
        refine ⟨f.edge :: es, .link hf ?_⟩
        rwa [← hkey]
  intro f hf
  exact hall f.depth f hf le_rfl

/-- The value a node carries is the root's, extended along its chain. -/
theorem Tree.tag_of_chain (h : g.Tree found) {es : List ε} (hc : g.Chain found k es) :
    (k = g.root ∧ es = []) ∨
      ∃ f ∈ found, f.key = k ∧ f.tag = es.foldr (fun e t => g.extend t e) g.tag := by
  induction hc with
  | root => exact .inl ⟨rfl, rfl⟩
  | @link f es hf hc ih =>
    refine .inr ⟨f, hf, rfl, ?_⟩
    obtain ⟨d, t, ho, -, htag, -⟩ := h.linked f hf
    rw [htag, List.foldr_cons]
    congr 1
    rcases ho.depth_pos_or with ⟨-, hroot, rfl⟩ | ⟨p, hp, -, hkey, rfl⟩
    · rcases ih with ⟨-, rfl⟩ | ⟨f', hf', hkey', -⟩
      · rfl
      · exact absurd (hkey'.trans hroot) (h.ne_root hf')
    · rcases ih with ⟨hroot, -⟩ | ⟨f', hf', hkey', htag'⟩
      · exact absurd (hkey.trans hroot) (h.ne_root hp)
      · rw [h.unique hp hf' (hkey.trans hkey'.symm), htag']

end Search

end BfsLib
