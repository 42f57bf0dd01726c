import GraphR.Store.Ranking

/-! # Answers

    Rendering keeps the ranked results in order and stops at the limit or the
    budget: every hit is a ranked key with a node (`mem_render`), and with room for
    everything every ranked key with a node is a hit (`render_roomy`). -/

namespace GraphR

open Wal ByteLib LookupLib

section render
variable {F : Type} {u : Unicode} {xxh3 : Bytes → UInt64} {s : Snapshot} {terms : List String}
  {opts : QueryOpts}

/-- A hit is a ranked key, with what its node holds. -/
structure Hit.Of (s : Snapshot) (ranked : List (Candidate F)) (h : Hit F) : Prop where
  ranked : ∃ c ∈ ranked, c.key = h.key
  node : ∃ n, s.node h.key = some (some n) ∧ h.url = n.url ∧ h.title = n.title ∧
    h.snippet = n.snippet

theorem Hit.Of.mono {ranked ranked' : List (Candidate F)} {h : Hit F} (hof : h.Of s ranked)
    (hsub : ∀ c ∈ ranked, c ∈ ranked') : h.Of s ranked' := by
  obtain ⟨⟨c, hc, hkey⟩, hnode⟩ := hof
  exact ⟨⟨c, hsub c hc, hkey⟩, hnode⟩

/-- Whatever is rendered was there before or is a hit of the ranked rest. -/
theorem mem_render {ranked : List (Candidate F)} {spent : UInt32} {out hits : List (Hit F)}
    (h : render u xxh3 s terms opts ranked spent out = some hits) :
    ∀ hit ∈ hits, hit ∈ out ∨ hit.Of s ranked := by
  induction ranked generalizing spent out with
  | nil =>
    cases h
    exact fun hit hhit => .inl hhit
  | cons c rest ih =>
    have hsub : ∀ c' ∈ rest, c' ∈ c :: rest := fun c' hc' => List.mem_cons_of_mem _ hc'
    rw [render] at h
    by_cases hlimit : opts.limit ≤ out.length
    · rw [if_pos hlimit] at h
      cases h
      exact fun hit hhit => .inl hhit
    · rw [if_neg hlimit] at h
      obtain ⟨o, ho, h⟩ := Option.bind_eq_some_iff.mp h
      cases o with
      | none => exact fun hit hhit => (ih h hit hhit).imp id fun hof => hof.mono hsub
      | some n =>
        obtain ⟨anchor, -, h⟩ := Option.bind_eq_some_iff.mp h
        by_cases hbudget : opts.budget < spent + estimateTokens n.url n.title n.snippet anchor
        · simp only [hbudget, if_true, Option.some.injEq] at h
          subst h
          exact fun hit hhit => .inl hhit
        · simp only [hbudget, if_false] at h
          intro hit hhit
          rcases ih h hit hhit with hmem | hof
          · rcases List.mem_append.mp hmem with hmem | hmem
            · exact .inl hmem
            · obtain rfl := List.mem_singleton.mp hmem
              exact .inr ⟨⟨c, by simp, rfl⟩, n, ho, rfl, rfl, rfl⟩
          · exact .inr (hof.mono hsub)

theorem bestAnchor_isSome (hs : s.base.Sound) (key : UrlKey) :
    (bestAnchor u xxh3 s terms key).isSome := by
  obtain ⟨segs, hsegs⟩ := Option.isSome_iff_exists.mp (Snapshot.segments_isSome hs xxh3 key)
  unfold bestAnchor
  rw [hsegs]
  rfl

theorem render_isSome (hs : s.base.Sound) (ranked : List (Candidate F)) (spent : UInt32)
    (out : List (Hit F)) : (render u xxh3 s terms opts ranked spent out).isSome := by
  induction ranked generalizing spent out with
  | nil => rfl
  | cons c rest ih =>
    obtain ⟨o, ho⟩ := Option.isSome_iff_exists.mp (Snapshot.node_isSome hs c.key)
    rw [render]
    by_cases hlimit : opts.limit ≤ out.length
    · rw [if_pos hlimit]
      rfl
    · rw [if_neg hlimit, ho]
      simp only [Option.bind_eq_bind, Option.bind_some]
      cases o with
      | none => exact ih _ _
      | some n =>
        obtain ⟨anchor, hanchor⟩ := Option.isSome_iff_exists.mp
          (@bestAnchor_isSome u xxh3 s terms hs c.key)
        simp only [hanchor, Option.bind_some]
        split_ifs
        · rfl
        · exact ih _ _

/-- What rendering one candidate costs: nothing where its key has no node. -/
def renderCost (u : Unicode) (xxh3 : Bytes → UInt64) (s : Snapshot) (terms : List String)
    (key : UrlKey) : Nat :=
  match s.node key, bestAnchor u xxh3 s terms key with
  | some (some n), some anchor => (estimateTokens n.url n.title n.snippet anchor).toNat
  | _, _ => 0

/-- Limit and budget have room for every candidate. -/
structure Roomy (u : Unicode) (xxh3 : Bytes → UInt64) (s : Snapshot) (terms : List String)
    (opts : QueryOpts) (ranked : List (Candidate F)) : Prop where
  limit : ranked.length ≤ opts.limit
  budget : (ranked.map fun c => renderCost u xxh3 s terms c.key).sum ≤ opts.budget.toNat

/-- With room for everything, nothing rendered is dropped and every ranked key with a
    node is a hit. -/
theorem render_room {ranked : List (Candidate F)} {spent : UInt32} {out hits : List (Hit F)}
    (h : render u xxh3 s terms opts ranked spent out = some hits)
    (hlimit : out.length + ranked.length ≤ opts.limit)
    (hbudget : spent.toNat + (ranked.map fun c => renderCost u xxh3 s terms c.key).sum
      ≤ opts.budget.toNat) :
    (∀ hit ∈ out, hit ∈ hits) ∧
      ∀ c ∈ ranked, ∀ n, s.node c.key = some (some n) → ∃ hit ∈ hits, hit.key = c.key := by
  induction ranked generalizing spent out with
  | nil =>
    cases h
    exact ⟨fun hit hhit => hhit, by simp⟩
  | cons c rest ih =>
    simp only [List.length_cons, List.map_cons, List.sum_cons] at hlimit hbudget
    rw [render, if_neg (by omega)] at h
    obtain ⟨o, ho, h⟩ := Option.bind_eq_some_iff.mp h
    cases o with
    | none =>
      obtain ⟨hkept, hrest⟩ := ih h (by omega) (by omega)
      refine ⟨hkept, fun c' hc' n hn => ?_⟩
      rcases List.mem_cons.mp hc' with rfl | hc'
      · rw [ho] at hn
        cases hn
      · exact hrest c' hc' n hn
    | some n =>
      obtain ⟨anchor, hanchor, h⟩ := Option.bind_eq_some_iff.mp h
      have hcost : renderCost u xxh3 s terms c.key
          = (estimateTokens n.url n.title n.snippet anchor).toNat := by
        unfold renderCost
        rw [ho, hanchor]
      rw [hcost] at hbudget
      -- the sum stays below the budget, so it does not wrap
      have hsum : (spent + estimateTokens n.url n.title n.snippet anchor).toNat
          = spent.toNat + (estimateTokens n.url n.title n.snippet anchor).toNat := by
        have hlt := opts.budget.toNat_lt
        rw [UInt32.toNat_add]
        exact Nat.mod_eq_of_lt (by omega)
      have hfits : ¬opts.budget < spent + estimateTokens n.url n.title n.snippet anchor := by
        rw [UInt32.lt_iff_toNat_lt, hsum]
        omega
      simp only [hfits, if_false] at h
      obtain ⟨hkept, hrest⟩ := ih h (by simp; omega) (by rw [hsum]; omega)
      refine ⟨fun hit hhit => hkept hit (List.mem_append_left _ hhit), fun c' hc' n' hn' => ?_⟩
      rcases List.mem_cons.mp hc' with rfl | hc'
      · exact ⟨_, hkept _ (List.mem_append_right _ (List.mem_singleton.mpr rfl)), rfl⟩
      · exact hrest c' hc' n' hn'

/-- With room for every candidate, every ranked key with a node is a hit. -/
theorem render_roomy {ranked : List (Candidate F)} {hits : List (Hit F)}
    (hroom : Roomy u xxh3 s terms opts ranked)
    (h : render u xxh3 s terms opts ranked 0 [] = some hits) {c : Candidate F} (hc : c ∈ ranked)
    {n : NodeRef} (hn : s.node c.key = some (some n)) : ∃ hit ∈ hits, hit.key = c.key :=
  (render_room h (by simpa using hroom.limit) (by simpa using hroom.budget)).2 c hc n hn

end render

/-! ## Related documents -/

section related
variable {F : Type} {A : F32 F} {s : Snapshot}

theorem mem_relatedHits {k : Nat} {ranked : List (UrlKey × F)} {out hits : List (Hit F)}
    (h : relatedHits s k ranked out = some hits) :
    ∀ hit ∈ hits, hit ∈ out ∨ ∃ n, s.node hit.key = some (some n) ∧ n.isStub = false ∧
      n.isTombstone = false := by
  induction ranked generalizing out with
  | nil =>
    cases h
    exact fun hit hhit => .inl hhit
  | cons e rest ih =>
    rw [relatedHits] at h
    by_cases hlimit : k ≤ out.length
    · rw [if_pos hlimit] at h
      cases h
      exact fun hit hhit => .inl hhit
    · rw [if_neg hlimit] at h
      obtain ⟨o, ho, h⟩ := Option.bind_eq_some_iff.mp h
      cases o with
      | none => exact ih h
      | some n =>
        by_cases hgone : n.isStub ∨ n.isTombstone
        · simp only [hgone, if_true] at h
          exact ih h
        · simp only [hgone, if_false] at h
          intro hit hhit
          rcases ih h hit hhit with hmem | hlive
          · rcases List.mem_append.mp hmem with hmem | hmem
            · exact .inl hmem
            · obtain rfl := List.mem_singleton.mp hmem
              rw [not_or] at hgone
              exact .inr ⟨n, ho, by simpa using hgone.1, by simpa using hgone.2⟩
          · exact .inr hlive

/-- Related documents are documents. -/
theorem mem_related {key : UrlKey} {k : Nat} {hits : List (Hit F)}
    (h : related A s key k = some hits) : ∀ hit ∈ hits,
      ∃ n, s.node hit.key = some (some n) ∧ n.isStub = false ∧ n.isTombstone = false := by
  unfold related at h
  obtain ⟨es, -, h⟩ := Option.bind_eq_some_iff.mp h
  intro hit hhit
  rcases mem_relatedHits h hit hhit with hmem | hlive
  · cases hmem
  · exact hlive

end related

end GraphR
