import GraphR.Format.Basic
import GraphR.Library.Lookup

/-! # Text rules

    Tokenization and case folding, shared by the index and the query, and the
    tiers at which a token matches a term. The Unicode tables of the standard
    library are a parameter: nothing here depends on which characters are letters
    or how they fold. Strings compare by their bytes. -/

namespace GraphR

open ByteLib LookupLib

/-! ## Tokens -/

/-- The character tables tokenization consults. -/
structure Unicode where
  isAlphanumeric : Char → Bool
  isUppercase : Char → Bool
  toLowercase : String → String

namespace Unicode

/-- The tables where they are ASCII. -/
def ascii : Unicode := ⟨Char.isAlphanum, Char.isUpper, fun s => .ofList (s.toList.map Char.toLower)⟩

variable (u : Unicode)

/-- Maximal runs of alphanumerics. -/
def tokens (text : String) : List String :=
  ((text.toList.splitOnP fun c => !u.isAlphanumeric c).filter fun t => !t.isEmpty).map .ofList

/-- `str::is_ascii`. -/
def isAscii (token : String) : Bool := token.toList.all fun c => c.toNat < 128

/-- `str::to_ascii_lowercase`. -/
def toAsciiLowercase (token : String) : String := .ofList (token.toList.map Char.toLower)

/-- A token's canonical lowercase form. -/
def normalize (token : String) : String :=
  if token.toList.all fun c => !u.isUppercase c then token
  else if isAscii token then toAsciiLowercase token
  else u.toLowercase token

/-- The case-folded tokens of a text, in order (`for_each_term`). -/
def terms (text : String) : List String := (u.tokens text).map u.normalize

/-- The terms of a query: those of two bytes and more, each once. -/
def dedupTerms (query : String) : List String :=
  (u.terms query).foldl
    (fun acc t => if 2 ≤ strLen t ∧ t ∉ acc then acc ++ [t] else acc) []

end Unicode

/-- What follows the first `://`. -/
def afterScheme : List Char → Option (List Char)
  | [] => none
  | c :: cs => if [':', '/', '/'] <+: c :: cs then some (cs.drop 2) else afterScheme cs

/-- A URL without its scheme, as the index and the query read it. -/
def searchable (url : String) : String := (afterScheme url.toList).elim url .ofList

/-! ## Tiers -/

/-- How well a token matches a term. -/
inductive Tier where
  | none
  | substr
  | pfx
  | exact
  deriving DecidableEq, Repr

namespace Tier

/-- Its place among the tiers. -/
def rank : Tier → Nat
  | none => 0
  | substr => 1
  | pfx => 2
  | exact => 3

theorem rank_injective : Function.Injective rank := by
  intro a b h
  cases a <;> cases b <;> first | rfl | cases h

instance linearOrder : LinearOrder Tier := LinearOrder.lift' rank rank_injective

theorem le_iff (a b : Tier) : a ≤ b ↔ a.rank ≤ b.rank := Iff.rfl

theorem none_le (a : Tier) : none ≤ a := Nat.zero_le _

end Tier

/-- `token.starts_with(term)`. -/
def startsWith (token term : String) : Prop := strBytes term <+: strBytes token

instance (token term : String) : Decidable (startsWith token term) :=
  inferInstanceAs (Decidable (strBytes term <+: strBytes token))

/-- `token.contains(term)`. -/
def containsStr (token term : String) : Prop := strBytes term <:+: strBytes token

instance (token term : String) : Decidable (containsStr token term) :=
  inferInstanceAs (Decidable (strBytes term <:+: strBytes token))

/-- `token < term`. -/
def strLt (token term : String) : Prop := strBytes token < strBytes term

instance (token term : String) : Decidable (strLt token term) :=
  inferInstanceAs (Decidable (strBytes token < strBytes term))

/-- The tier of a token, compared directly. -/
def tierOf (term token : String) : Tier :=
  if token = term then .exact
  else if startsWith token term then .pfx
  else if containsStr token term then .substr
  else .none

/-- The tier of a token in the vocabulary indices: a term under three bytes has no
    trigram to be found by. -/
def indexedTier (term token : String) : Tier :=
  if tierOf term token = .substr ∧ strLen term < 3 then .none else tierOf term token

/-- The best of a list of tiers. -/
def bestTier (tiers : List Tier) : Tier := tiers.foldl max .none

theorem bestTier_from (tiers : List Tier) (t : Tier) :
    tiers.foldl max t = max t (bestTier tiers) := by
  induction tiers generalizing t with
  | nil => exact (max_eq_left (Tier.none_le t)).symm
  | cons a tiers ih =>
    rw [bestTier, List.foldl_cons, List.foldl_cons, ih, ih (max Tier.none a), ← max_assoc,
      ← max_assoc, max_eq_left (Tier.none_le t)]

@[simp] theorem bestTier_nil : bestTier [] = .none := rfl

@[simp] theorem bestTier_cons (t : Tier) (tiers : List Tier) :
    bestTier (t :: tiers) = max t (bestTier tiers) := by
  rw [bestTier, List.foldl_cons, bestTier_from, max_eq_right (Tier.none_le t)]

theorem le_bestTier {t : Tier} {tiers : List Tier} (h : t ∈ tiers) : t ≤ bestTier tiers := by
  induction tiers with
  | nil => cases h
  | cons a tiers ih =>
    rw [bestTier_cons]
    rcases List.mem_cons.mp h with rfl | h
    · exact le_max_left _ _
    · exact le_max_of_le_right (ih h)

theorem bestTier_le_iff {t : Tier} {tiers : List Tier} :
    bestTier tiers ≤ t ↔ ∀ a ∈ tiers, a ≤ t := by
  induction tiers with
  | nil => simpa using Tier.none_le t
  | cons a tiers ih => simp [ih]

/-- The best tier is reached, unless nothing matches. -/
theorem bestTier_mem {tiers : List Tier} (h : bestTier tiers ≠ .none) : bestTier tiers ∈ tiers := by
  induction tiers with
  | nil => exact absurd rfl h
  | cons a tiers ih =>
    rw [bestTier_cons] at h ⊢
    rcases le_total a (bestTier tiers) with hle | hle
    · rw [max_eq_right hle] at h ⊢
      exact List.mem_cons_of_mem _ (ih h)
    · rw [max_eq_left hle]
      exact List.mem_cons_self

end GraphR
