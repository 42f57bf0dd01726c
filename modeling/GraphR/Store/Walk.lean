import GraphR.Library.Bfs
import GraphR.Store.Reach
import GraphR.Store.Safe

/-! # Walks are breadth-first searches

    A walk is run in buffers its caller keeps from one walk to the next. It clears
    what it reads of them (`walkIn_eq`), so it is the search `Snapshot.search`
    describes, over the edges the filter accepts (`walkAlong_eq`); what such a search
    finds is the library's business. -/

namespace GraphR

open Wal ByteLib BaseFile BfsLib

/-! ## Walking in kept buffers -/

/-- Which way a walk follows edges. -/
inductive Direction where
  | out
  | inb
  deriving DecidableEq

/-- Reusable walk state: the visited set and the two frontiers. -/
structure WalkBuffers where
  seen : List UrlKey
  frontier : List (UrlKey × Bool)
  next : List (UrlKey × Bool)

namespace WalkBuffers

/-- Empty walk state. -/
def new : WalkBuffers := ⟨[], [], []⟩

/-- Offer one edge, `w.2` being the hops offered so far. -/
def step (follow : EdgeType → Bool) (visit : List Hop → Hop → Bool) (node : UrlKey) (chain : Bool)
    (depth : Nat) (w : WalkBuffers × List Hop) (key : UrlKey) (etype : EdgeType) (flags : UInt8) :
    WalkBuffers × List Hop :=
  if !follow etype || w.1.seen.contains key then w
  else
    let hop : Hop := ⟨key, node, etype, depth, chain && (flags &&& eflags.exact != 0)⟩
    let w' := { w.1 with seen := key :: w.1.seen }
    if visit w.2 hop then ({ w' with next := w'.next ++ [(key, hop.exactChain)] }, w.2 ++ [hop])
    else (w', w.2 ++ [hop])

end WalkBuffers

namespace Snapshot

section walks
variable (s : Snapshot) (out inbound : Bool) (follow : EdgeType → Bool)
  (visit : List Hop → Hop → Bool)

/-- The edges offered at a node: outbound ones before inbound ones. -/
def offered (key : UrlKey) : Option (List EdgeRef × List InEdge) :=
  (if out then s.neighbors key else some []).bind fun es =>
    (if inbound then s.inEdges key else some []).map fun ins => (es, ins)

/-- Expand one node of the frontier. -/
def expandIn (depth : Nat) (w : WalkBuffers × List Hop) (node : UrlKey × Bool) :
    Option (WalkBuffers × List Hop) := do
  let (es, ins) ← s.offered out inbound node.1
  let w := es.foldl (fun w e =>
    WalkBuffers.step follow visit node.1 node.2 depth w e.dstKey e.etype e.flags) w
  some (ins.foldl (fun w e =>
    WalkBuffers.step follow visit node.1 node.2 depth w e.src e.etype e.flags) w)

/-- `for depth in 1..=max_depth`, `left` of them to go. -/
def levelsIn : Nat → Nat → WalkBuffers × List Hop → Option (WalkBuffers × List Hop)
  | 0, _, w => some w
  | left + 1, depth, w => do
    let w ← w.1.frontier.foldlM (s.expandIn out inbound follow visit depth)
      ({ w.1 with next := [] }, w.2)
    if w.1.next.isEmpty then some w
    else levelsIn left (depth + 1) (⟨w.1.seen, w.1.next, w.1.frontier⟩, w.2)

/-- `walk_along` in the buffers `w`. -/
def walkIn (src : UrlKey) (maxDepth : UInt32) (w : WalkBuffers) :
    Option (WalkBuffers × List Hop) :=
  s.levelsIn out inbound follow visit maxDepth.toNat 1 (⟨[src], [(src, true)], w.next⟩, [])

/-- Walk along edges in one direction. -/
def walk (src : UrlKey) (dir : Direction) (maxDepth : UInt32) (w : WalkBuffers) :
    Option (WalkBuffers × List Hop) :=
  let out := dir == .out
  s.walkIn out (!out) follow visit src maxDepth w

/-- Walk along outbound and inbound edges at once. -/
def walkBoth (src : UrlKey) (maxDepth : UInt32) (w : WalkBuffers) :
    Option (WalkBuffers × List Hop) :=
  s.walkIn true true follow visit src maxDepth w

end walks

/-! ## The buffers do not matter -/

section buffers
variable {s : Snapshot} {out inbound : Bool} {follow : EdgeType → Bool}
  {visit : List Hop → Hop → Bool}

/-- The buffers of a walk whose current frontier is `frontier`. -/
def inBuffers (frontier : List (UrlKey × Bool)) (w : Walk) : WalkBuffers × List Hop :=
  (⟨w.seen, frontier, w.next⟩, w.hops)

theorem step_inBuffers (frontier : List (UrlKey × Bool)) (node : UrlKey) (chain : Bool)
    (depth : Nat) (w : Walk) (key : UrlKey) (etype : EdgeType) (flags : UInt8) :
    WalkBuffers.step follow visit node chain depth (inBuffers frontier w) key etype flags
      = inBuffers frontier (w.step follow visit node chain depth key etype flags) := by
  unfold WalkBuffers.step Walk.step inBuffers
  by_cases hskip : (!follow etype || w.seen.contains key) = true
  · rw [if_pos hskip, if_pos hskip]
  · rw [if_neg hskip, if_neg hskip]
    dsimp only
    split_ifs <;> rfl

/-- A fresh walk expands along the same edges. -/
theorem expand_eq (depth : Nat) (w : Walk) (node : UrlKey × Bool) :
    s.expand out inbound follow visit depth w node
      = (s.offered out inbound node.1).map fun p =>
          p.2.foldl (fun w e => w.step follow visit node.1 node.2 depth e.src e.etype e.flags)
            (p.1.foldl (fun w e =>
              w.step follow visit node.1 node.2 depth e.dstKey e.etype e.flags) w) := by
  unfold expand offered
  cases hn : s.neighbors node.1 <;> cases hi : s.inEdges node.1 <;> cases out <;> cases inbound <;>
    simp

theorem expandIn_inBuffers (frontier : List (UrlKey × Bool)) (depth : Nat) (node : UrlKey × Bool)
    (w : Walk) :
    s.expandIn out inbound follow visit depth (inBuffers frontier w) node
      = (s.expand out inbound follow visit depth w node).map (inBuffers frontier) := by
  rw [expand_eq, expandIn]
  cases s.offered out inbound node.1 with
  | none => rfl
  | some p =>
    simp only [Option.bind_eq_bind, Option.bind_some, Option.map_some, Option.some.injEq]
    rw [List.foldl_hom (inBuffers frontier) fun w e => step_inBuffers frontier ..,
      List.foldl_hom (inBuffers frontier) fun w e => step_inBuffers frontier ..]

theorem foldlM_expandIn (frontier : List (UrlKey × Bool)) (depth : Nat)
    (nodes : List (UrlKey × Bool)) (w : Walk) :
    nodes.foldlM (s.expandIn out inbound follow visit depth) (inBuffers frontier w)
      = (nodes.foldlM (s.expand out inbound follow visit depth) w).map (inBuffers frontier) := by
  induction nodes generalizing w with
  | nil => rfl
  | cons node nodes ih =>
    rw [List.foldlM_cons, List.foldlM_cons, expandIn_inBuffers]
    cases s.expand out inbound follow visit depth w node with
    | none => rfl
    | some w' => exact ih w'

/-- A level clears the next frontier before it fills it. -/
theorem walkLevels_next (left depth : Nat) (w : Walk) (next frontier : List (UrlKey × Bool)) :
    (s.walkLevels out inbound follow visit left depth { w with next := next } frontier).map Walk.hops
      = (s.walkLevels out inbound follow visit left depth w frontier).map Walk.hops := by
  cases left with
  | zero => rfl
  | succ left => rfl

theorem levelsIn_inBuffers (left depth : Nat) (frontier : List (UrlKey × Bool)) (w : Walk) :
    (s.levelsIn out inbound follow visit left depth (inBuffers frontier w)).map Prod.snd
      = (s.walkLevels out inbound follow visit left depth w frontier).map Walk.hops := by
  induction left generalizing depth frontier w with
  | zero => rfl
  | succ left ih =>
    have hlevel := @foldlM_expandIn s out inbound follow visit frontier depth frontier
      { w with next := [] }
    rw [levelsIn, walkLevels]
    simp only [inBuffers] at hlevel ⊢
    rw [hlevel]
    cases frontier.foldlM (s.expand out inbound follow visit depth) { w with next := [] } with
    | none => rfl
    | some w' =>
      simp only [Option.map_some, Option.bind_eq_bind, Option.bind_some]
      have hnext : (inBuffers frontier w').1.next = w'.next := rfl
      rw [hnext]
      by_cases hempty : w'.next.isEmpty = true
      · rw [if_pos hempty, if_pos hempty]
        rfl
      · rw [if_neg hempty, if_neg hempty]
        -- the frontiers are swapped: what `next` holds now is cleared by the next level
        rw [← walkLevels_next _ _ _ frontier]
        exact ih (depth + 1) w'.next { w' with next := frontier }

/-- Whatever the buffers held, the hops are those of a fresh walk. -/
theorem walkIn_eq (src : UrlKey) (maxDepth : UInt32) (w : WalkBuffers) :
    (s.walkIn out inbound follow visit src maxDepth w).map Prod.snd
      = s.walkAlong out inbound follow visit src maxDepth := by
  have hlevels := @levelsIn_inBuffers s out inbound follow visit maxDepth.toNat 1 [(src, true)]
    ⟨[src], w.next, []⟩
  exact hlevels.trans (walkLevels_next (w := ⟨[src], [], []⟩) ..)

end buffers

/-! ## The search a walk is -/

section search
variable (s : Snapshot) (out inbound : Bool) (follow : EdgeType → Bool)
  (visit : List Hop → Hop → Bool)

/-- An edge as a walk meets it at one of its ends: the other end, type, flags. -/
abbrev Crossing := UrlKey × EdgeType × UInt8

/-- The edges a walk may cross from a node, in the order it is offered them. -/
def crossings (key : UrlKey) : Option (List Crossing) :=
  (s.offered out inbound key).map fun p =>
    (p.1.map (fun e => (e.dstKey, e.etype, e.flags)) ++
      p.2.map fun e => (e.src, e.etype, e.flags)).filter fun c => follow c.2.1

/-- A node found, as the visitor sees it. -/
def hopOf (f : BfsLib.Found UrlKey (EdgeType × UInt8) Bool) : Hop := ⟨f.key, f.src, f.edge.1, f.depth, f.tag⟩

/-- The search from `src`: the value carried says whether every edge so far is
    exact. -/
def search (src : UrlKey) : Search UrlKey (EdgeType × UInt8) Bool where
  succ := fun key => (s.crossings out inbound follow key).getD []
  extend := fun chain edge => chain && (edge.2 &&& eflags.exact != 0)
  visit := fun found f => visit (found.map hopOf) (hopOf f)
  root := src
  tag := true

variable {s out inbound follow visit}

/-- The walk's state as the visitor's side sees it. -/
def ofState (w : State UrlKey (EdgeType × UInt8) Bool) : Walk := ⟨w.seen, w.next, w.found.map hopOf⟩

/-- An accepted edge is offered, another one is skipped. -/
theorem step_ofState (src : UrlKey) (node : UrlKey × Bool) (depth : Nat)
    (w : State UrlKey (EdgeType × UInt8) Bool) (c : Crossing) :
    (ofState w).step follow visit node.1 node.2 depth c.1 c.2.1 c.2.2
      = ofState (if follow c.2.1 then (s.search out inbound follow visit src).offer depth node w c
          else w) := by
  obtain ⟨key, etype, flags⟩ := c
  unfold Walk.step Search.offer ofState
  by_cases hf : follow etype = true
  · by_cases hmem : key ∈ w.seen
    · simp [hf, hmem]
    · simp [hf, hmem, search, hopOf]
      rfl
  · simp [hf]

/-- So a node is expanded along its crossings. -/
theorem expand_ofState (src : UrlKey) (depth : Nat) (w : State UrlKey (EdgeType × UInt8) Bool)
    (node : UrlKey × Bool) (hsome : (s.crossings out inbound follow node.1).isSome) :
    s.expand out inbound follow visit depth (ofState w) node
      = some (ofState ((s.search out inbound follow visit src).expand depth w node)) := by
  have hfold : ∀ (cs : List Crossing) (w : State UrlKey (EdgeType × UInt8) Bool),
      cs.foldl (fun w c => w.step follow visit node.1 node.2 depth c.1 c.2.1 c.2.2) (ofState w)
        = ofState ((cs.filter fun c => follow c.2.1).foldl
            ((s.search out inbound follow visit src).offer depth node) w) := by
    intro cs
    induction cs with
    | nil => intro w; rfl
    | cons c cs ih =>
      intro w
      rw [List.foldl_cons, @step_ofState s out inbound follow visit src, ih, List.filter_cons]
      split_ifs <;> rfl
  obtain ⟨cs, hcs⟩ := Option.isSome_iff_exists.mp hsome
  obtain ⟨p, hp, rfl⟩ := Option.map_eq_some_iff.mp hcs
  have hsucc : (s.search out inbound follow visit src).succ node.1
      = (p.1.map (fun e => (e.dstKey, e.etype, e.flags)) ++
          p.2.map fun e => (e.src, e.etype, e.flags)).filter fun c => follow c.2.1 := by
    simp [search, hcs]
  rw [expand_eq, hp, Search.expand, hsucc, ← hfold, List.foldl_append, List.foldl_map,
    List.foldl_map]
  rfl

variable (hs : s.base.Sound)
include hs

theorem crossings_isSome (key : UrlKey) : (s.crossings out inbound follow key).isSome := by
  obtain ⟨es, hes⟩ := Option.isSome_iff_exists.mp (neighbors_isSome hs key)
  obtain ⟨ins, hins⟩ := Option.isSome_iff_exists.mp (inEdges_isSome hs key)
  unfold crossings offered
  cases out <;> cases inbound <;> simp [hes, hins]

theorem foldlM_ofState (src : UrlKey) (depth : Nat) (frontier : List (UrlKey × Bool))
    (w : State UrlKey (EdgeType × UInt8) Bool) :
    frontier.foldlM (s.expand out inbound follow visit depth) (ofState w)
      = some (ofState (frontier.foldl ((s.search out inbound follow visit src).expand depth) w)) := by
  induction frontier generalizing w with
  | nil => rfl
  | cons node frontier ih =>
    rw [List.foldlM_cons, expand_ofState src depth w node (crossings_isSome hs node.1)]
    exact ih _

theorem walkLevels_ofState (src : UrlKey) (left depth : Nat) (frontier : List (UrlKey × Bool))
    (w : State UrlKey (EdgeType × UInt8) Bool) :
    s.walkLevels out inbound follow visit left depth (ofState w) frontier
      = some (ofState ((s.search out inbound follow visit src).levels left depth w frontier)) := by
  induction left generalizing depth frontier w with
  | zero => rfl
  | succ left ih =>
    have hlevel := @foldlM_ofState s out inbound follow visit hs src depth frontier
      { w with next := [] }
    rw [walkLevels, Search.levels]
    simp only [ofState] at hlevel ⊢
    rw [hlevel]
    simp only [Option.bind_eq_bind, Option.bind_some]
    generalize frontier.foldl _ _ = w'
    by_cases hempty : w'.next.isEmpty = true
    · rw [if_pos hempty, if_pos hempty]
    · rw [if_neg hempty, if_neg hempty]
      exact ih (depth + 1) w'.next w'

/-- A walk offers the visitor what its search finds, in order. -/
theorem walkAlong_eq (src : UrlKey) (maxDepth : UInt32) :
    s.walkAlong out inbound follow visit src maxDepth
      = some (((s.search out inbound follow visit src).run maxDepth.toNat).map hopOf) := by
  have hlevels := @walkLevels_ofState s out inbound follow visit hs src maxDepth.toNat 1
    [(src, true)] ⟨[src], [], []⟩
  simp only [ofState, List.map_nil] at hlevels
  rw [walkAlong, hlevels]
  rfl

end search

/-! ## Breadth-first -/

/-- The hops of a walk, whatever buffers it is given: what a breadth-first search
    over the accepted edges finds, `exact_chain` saying whether the edges back to
    the start are all exact. -/
def BreadthFirstWalk (s : Snapshot) (out inbound : Bool) (follow : EdgeType → Bool)
    (visit : List Hop → Hop → Bool) (src : UrlKey) (maxDepth : UInt32)
    (walk : WalkBuffers → Option (WalkBuffers × List Hop)) : Prop :=
  ∃ found, (∀ w, (walk w).map Prod.snd = some (found.map hopOf)) ∧
    (s.search out inbound follow visit src).BreadthFirst maxDepth.toNat found ∧
    ∀ f ∈ found, (∃ edges, (s.search out inbound follow visit src).Chain found f.key edges) ∧
      ∀ edges, (s.search out inbound follow visit src).Chain found f.key edges →
        ((hopOf f).exactChain = true ↔ ∀ e ∈ edges, e.2 &&& eflags.exact ≠ 0)

theorem breadthFirstWalk_walkIn {s : Snapshot} (hs : s.base.Sound) (out inbound : Bool)
    (follow : EdgeType → Bool) (visit : List Hop → Hop → Bool) (src : UrlKey)
    (maxDepth : UInt32) :
    s.BreadthFirstWalk out inbound follow visit src maxDepth
      (s.walkIn out inbound follow visit src maxDepth) := by
  have hbfs := (s.search out inbound follow visit src).run_breadthFirst maxDepth.toNat
  refine ⟨_, fun w => (walkIn_eq src maxDepth w).trans (walkAlong_eq hs src maxDepth), hbfs, ?_⟩
  intro f hf
  refine ⟨hbfs.tree.exists_chain f hf, ?_⟩
  intro edges hchain
  -- the carried value, unfolded along the chain
  have hall : ∀ es : List (EdgeType × UInt8),
      es.foldr (fun e t => t && (e.2 &&& eflags.exact != 0)) true = true ↔
        ∀ e ∈ es, e.2 &&& eflags.exact ≠ 0 := by
    intro es
    induction es with
    | nil => simp
    | cons e es ih => simp [ih, and_comm]
  rcases hbfs.tree.tag_of_chain hchain with ⟨hroot, -⟩ | ⟨f', hf', hkey, htag⟩
  · exact absurd hroot (hbfs.tree.ne_root hf)
  · obtain rfl := hbfs.tree.unique hf' hf hkey
    rw [← hall]
    exact Bool.coe_iff_coe.mpr htag

/-- `walk` and `walk_both` are breadth-first search, in fresh and in used buffers. -/
theorem walk_breadth_first (s : Snapshot) (hs : s.base.Sound) (follow : EdgeType → Bool)
    (visit : List Hop → Hop → Bool) (src : UrlKey) (maxDepth : UInt32) :
    (∀ dir, s.BreadthFirstWalk (dir == .out) (!(dir == .out)) follow visit src maxDepth
      (s.walk follow visit src dir maxDepth)) ∧
    s.BreadthFirstWalk true true follow visit src maxDepth
      (s.walkBoth follow visit src maxDepth) :=
  ⟨fun _ => breadthFirstWalk_walkIn hs _ _ _ _ _ _, breadthFirstWalk_walkIn hs _ _ _ _ _ _⟩

end Snapshot

/-! ## Written stores -/

/-- A written base is sound: ids below the node count read, and edges lead to such
    ids. -/
theorem Base.reader_sound {b : Base} (hb : b.Closed) : b.reader.Sound := by
  have hlt : ∀ {k id}, b.idOf k = some id → id < b.nodes.entries.length := by
    intro k id hid
    obtain ⟨m, -, hentry⟩ := entry_of_idOf hid
    exact (List.getElem?_eq_some_iff.mp hentry).1
  refine ⟨fun k => ⟨_, rfl, fun id hid => hlt hid⟩, ?_, fun _ => rfl, ?_, ?_, ?_, ?_⟩
  · intro id hid
    simp [reader, List.getElem?_eq_getElem hid]
  · intro id hid
    obtain ⟨⟨k, m⟩, hentry⟩ : ∃ e, b.nodes.entries[id]? = some e :=
      ⟨_, List.getElem?_eq_getElem hid⟩
    have hget := SortedMap.mem_entries.mp (List.mem_of_getElem? hentry)
    have hedges : b.reader.edges id = m.edges.mapM b.resolve := by
      simp [reader, hentry]
    have hsome : (m.edges.mapM b.resolve).isSome := by
      apply FaultLib.mapM_isSome
      intro e he
      obtain ⟨md, hmd⟩ := Option.isSome_iff_exists.mp (hb k m hget e he)
      obtain ⟨i, hi, -⟩ := idOf_of_get hmd
      simp [resolve, hi]
    obtain ⟨run, hrun⟩ := Option.isSome_iff_exists.mp hsome
    refine ⟨run, by rw [hedges, hrun], ?_⟩
    intro r hr
    obtain ⟨e, -, he⟩ := (FaultLib.mem_of_mapM hrun).mp hr
    obtain ⟨i, hi, rfl⟩ := Option.map_eq_some_iff.mp he
    exact hlt hi
  · intro id hid
    refine ⟨b.inbound (b.nodes.entries[id]).1, by simp [reader, List.getElem?_eq_getElem hid], ?_⟩
    intro r hr
    obtain ⟨⟨e, i⟩, hmem, hr⟩ := List.mem_flatMap.mp hr
    obtain ⟨d, -, rfl⟩ := List.mem_map.mp hr
    exact (List.getElem?_eq_some_iff.mp (List.mem_zipIdx_iff_getElem?.mp hmem)).1
  · intro id hid
    simp [reader, List.getElem?_eq_getElem hid]
  · intro id hid
    simp [reader, List.getElem?_eq_getElem hid]

/-- Three nodes in a circle, the last edge not an exact copy. -/
def circle : List Op :=
  [.edges 1 [⟨2, 5, 4, 1⟩], .edges 2 [⟨3, 5, 4, 1⟩], .edges 3 [⟨1, 5, 0, 1⟩]]

theorem Snapshot.walk_breadth_first_circle :
    ∃ found, (∀ w, ((Base.snapshot ⟨SortedMap.empty, []⟩ circle TtlConfig.default).walkBoth
        (fun _ => true) (fun _ _ => true) 1 5 w).map Prod.snd
          = some (List.map Snapshot.hopOf found)) ∧
      found.map Snapshot.hopOf = [⟨2, 1, .derives, 1, true⟩, ⟨3, 1, .derives, 1, false⟩] := by
  have hsound : (Base.snapshot ⟨SortedMap.empty, []⟩ circle TtlConfig.default).base.Sound := by
    refine Base.reader_sound ?_
    intro k m hm
    cases hm
  obtain ⟨-, found, hwalk, -⟩ := Snapshot.walk_breadth_first
    (Base.snapshot ⟨SortedMap.empty, []⟩ circle TtlConfig.default) hsound (fun _ => true)
    (fun _ _ => true) 1 5
  refine ⟨found, hwalk, ?_⟩
  have hfresh : ((Base.snapshot ⟨SortedMap.empty, []⟩ circle TtlConfig.default).walkBoth
      (fun _ => true) (fun _ _ => true) 1 5 .new).map Prod.snd
        = some [⟨2, 1, .derives, 1, true⟩, ⟨3, 1, .derives, 1, false⟩] := by decide +kernel
  rw [hwalk] at hfresh
  simpa using hfresh

end GraphR
