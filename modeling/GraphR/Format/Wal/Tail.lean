import GraphR.Format.Wal.Cut

/-! # Scanning from a record boundary

    A handle that has consumed a log up to a record boundary scans the bytes behind
    it as an image of their own, from no number. Where a record lies makes no
    difference to what it is (`nextRecord_drop`), so such a scan is the whole one
    continued, up to the number the whole one carries across the boundary
    (`tail_agrees_iff`). -/

namespace GraphR

/-- Which error it is, its text apart. -/
inductive Error.Kind where
  | format
  | locked
  | busy
  | corrupt
  | readOnly
  | io
  | version
  deriving DecidableEq

def Error.kind : Error → Error.Kind
  | .format _ => .format
  | .locked => .locked
  | .busy _ => .busy
  | .corrupt _ => .corrupt
  | .readOnly => .readOnly
  | .io => .io
  | .version _ _ => .version

namespace Wal

open ByteLib

section tail
variable (xxh3 : Bytes → UInt64)

/-! ## Records at another place -/

/-- The same record, tear or kind of error. -/
inductive SameNext : Except Error Next → Except Error Next → Prop where
  | torn : SameNext (.ok .torn) (.ok .torn)
  | record {r r' : Record} (h : r.bytes = r'.bytes) : SameNext (.ok (.record r)) (.ok (.record r'))
  | error {e e' : Error} (h : e.kind = e'.kind) : SameNext (.error e) (.error e')

theorem checkOps_pos (rec : Bytes) (p q count k i at_ : Nat) :
    (∃ stop, checkOps rec p count k i at_ = .ok stop ∧ checkOps rec q count k i at_ = .ok stop) ∨
      ∃ m m', checkOps rec p count k i at_ = .error (.corrupt m) ∧
        checkOps rec q count k i at_ = .error (.corrupt m') := by
  induction k generalizing i at_ with
  | zero => exact .inl ⟨at_, rfl, rfl⟩
  | succ k ih =>
    rw [checkOps, checkOps]
    by_cases hshort : rec.length - at_ < opHeaderLen
    · rw [if_pos hshort, if_pos hshort]
      exact .inr ⟨_, _, rfl, rfl⟩
    · rw [if_neg hshort, if_neg hshort]
      by_cases hlen : (u32At rec at_).toNat < opHeaderLen ∨ maxOp < (u32At rec at_).toNat ∨
          rec.length - at_ < (u32At rec at_).toNat
      · simp only [hlen, if_true]
        exact .inr ⟨_, _, rfl, rfl⟩
      · simp only [hlen, if_false]
        cases validateOp (range rec at_ (u32At rec at_).toNat) with
        | error e => exact .inr ⟨_, _, rfl, rfl⟩
        | ok v => exact ih _ _

theorem checkRecord_pos (rec : Bytes) (p q : Nat) :
    (checkRecord rec p = .ok () ∧ checkRecord rec q = .ok ()) ∨
      ∃ m m', checkRecord rec p = .error (.corrupt m) ∧ checkRecord rec q = .error (.corrupt m') := by
  unfold checkRecord
  by_cases hres : byteAt rec 7 ≠ 0 ∨ u32At rec 20 ≠ 0
  · rw [if_pos hres, if_pos hres]
    exact .inr ⟨_, _, rfl, rfl⟩
  rw [if_neg hres, if_neg hres]
  by_cases hseq : u64At rec 8 = 0 ∨ u32At rec 16 = 0 ∨
      seqOverflows (u64At rec 8) (u32At rec 16).toNat
  · rw [if_pos hseq, if_pos hseq]
    exact .inr ⟨_, _, rfl, rfl⟩
  rw [if_neg hseq, if_neg hseq]
  rcases checkOps_pos rec p q (u32At rec 16).toNat (u32At rec 16).toNat 0 recordHeaderLen with
    ⟨stop, hp, hq⟩ | ⟨m, m', hp, hq⟩
  · rw [hp, hq]
    simp only [bind, Except.bind]
    split_ifs
    · exact .inr ⟨_, _, rfl, rfl⟩
    · exact .inl ⟨rfl, rfl⟩
  · rw [hp, hq]
    exact .inr ⟨_, _, rfl, rfl⟩

theorem readRecord_pos (rest : Bytes) (p q : Nat) :
    SameNext (readRecord xxh3 rest p) (readRecord xxh3 rest q) := by
  unfold readRecord
  by_cases hshort : rest.length < recordHeaderLen
  · rw [if_pos hshort, if_pos hshort]
    exact .torn
  rw [if_neg hshort, if_neg hshort]
  by_cases hhead : headed rest
  · rw [dif_pos hhead, dif_pos hhead]
    by_cases hsum : recordSum xxh3 (rest.take (u32At rest 0).toNat)
        ≠ u64At (rest.take (u32At rest 0).toNat) 24
    · rw [if_pos hsum, if_pos hsum]
      exact .torn
    rw [if_neg hsum, if_neg hsum]
    rcases checkRecord_pos (rest.take (u32At rest 0).toNat) p q with ⟨hp, hq⟩ | ⟨m, m', hp, hq⟩
    · rw [hp, hq]
      exact .record rfl
    · rw [hp, hq]
      exact .error rfl
  · rw [dif_neg hhead, dif_neg hhead]
    exact .torn

/-- What lies at a place of the bytes behind `b` is what lies there in the image. -/
theorem nextRecord_drop (bytes : Bytes) {b : Nat} (hb : b ≤ bytes.length) (p : Nat) :
    SameNext (nextRecord xxh3 (bytes.drop b) p) (nextRecord xxh3 bytes (b + p)) := by
  unfold nextRecord
  by_cases hpast : bytes.length < b + p
  · rw [if_pos hpast, if_pos (by rw [List.length_drop]; omega)]
    exact .torn
  · rw [if_neg hpast, if_neg (by rw [List.length_drop]; omega), List.drop_drop]
    exact readRecord_pos xxh3 _ _ _

/-! ## Scans -/

variable {xxh3} {bytes : Bytes}

/-- Enough fuel is enough. -/
theorem scanGo_fuel {fuel fuel' : Nat} (out : Scan) (h : bytes.length < out.stop + fuel)
    (h' : bytes.length < out.stop + fuel') :
    scanGo xxh3 bytes fuel out = scanGo xxh3 bytes fuel' out := by
  have hzero : ∀ (fuel : Nat) (out : Scan), bytes.length < out.stop →
      scanGo xxh3 bytes fuel out = out := by
    intro fuel out hpast
    cases fuel with
    | zero => rfl
    | succ fuel => rw [scanGo, nextRecord, if_pos hpast]
  induction fuel generalizing fuel' out with
  | zero => rw [hzero 0 out (by omega), hzero fuel' out (by omega)]
  | succ fuel ih =>
    cases fuel' with
    | zero => rw [hzero 0 out (by omega), hzero (fuel + 1) out (by omega)]
    | succ fuel' =>
      rw [scanGo, scanGo]
      cases nextRecord xxh3 bytes out.stop with
      | error e => rfl
      | ok next =>
        cases next with
        | torn => rfl
        | record r =>
          have hlen := r.len_pos
          simp only
          split_ifs
          · rfl
          · exact ih _ (by simp only; omega) (by simp only; omega)

/-- Where a scan stops, and on what, whatever it has counted. -/
theorem scanGo_ops (fuel : Nat) (out : Scan) (n : Nat) :
    (scanGo xxh3 bytes fuel { out with ops := n }).stop = (scanGo xxh3 bytes fuel out).stop ∧
      (scanGo xxh3 bytes fuel { out with ops := n }).corrupt
        = (scanGo xxh3 bytes fuel out).corrupt := by
  induction fuel generalizing out n with
  | zero => exact ⟨rfl, rfl⟩
  | succ fuel ih =>
    rw [scanGo, scanGo]
    simp only
    cases nextRecord xxh3 bytes out.stop with
    | error e => exact ⟨rfl, rfl⟩
    | ok next =>
      cases next with
      | torn => exact ⟨rfl, rfl⟩
      | record r =>
        simp only
        split_ifs
        · exact ⟨rfl, rfl⟩
        · exact ih ⟨out.stop + r.len, some r.lastSeq, out.ops + r.opCount, out.corrupt⟩ _

/-- A scan of the bytes behind `b` is one of the image from `b` on. -/
theorem scanGo_drop {b : Nat} (hb : b ≤ bytes.length) (fuel p n : Nat) (after : Option Nat) :
    (scanGo xxh3 bytes fuel ⟨b + p, after, n, none⟩).stop
        = b + (scanGo xxh3 (bytes.drop b) fuel ⟨p, after, n, none⟩).stop ∧
      (scanGo xxh3 bytes fuel ⟨b + p, after, n, none⟩).corrupt.map Error.kind
        = (scanGo xxh3 (bytes.drop b) fuel ⟨p, after, n, none⟩).corrupt.map Error.kind := by
  induction fuel generalizing p n after with
  | zero => exact ⟨rfl, rfl⟩
  | succ fuel ih =>
    have hsame := nextRecord_drop xxh3 bytes hb p
    rw [scanGo, scanGo]
    simp only
    generalize nextRecord xxh3 (bytes.drop b) p = here at hsame
    generalize nextRecord xxh3 bytes (b + p) = there at hsame
    cases hsame with
    | torn => exact ⟨rfl, rfl⟩
    | error hkind => exact ⟨rfl, by simp [hkind]⟩
    | @record r r' hbytes =>
      have hfirst : r'.firstSeq = r.firstSeq := by rw [Record.firstSeq, Record.firstSeq, hbytes]
      have hcount : r'.opCount = r.opCount := by rw [Record.opCount, Record.opCount, hbytes]
      have hlast : r'.lastSeq = r.lastSeq := by
        rw [Record.lastSeq, Record.lastSeq, hfirst, hcount]
      have hlen : r'.len = r.len := by rw [Record.len, Record.len, hbytes]
      simp only [hfirst, hcount, hlast, hlen]
      split_ifs
      · exact ⟨rfl, rfl⟩
      · rw [Nat.add_assoc b p r.len]
        exact ih _ _ _

/-! ## At a boundary -/

variable (xxh3 bytes) in
/-- The records a scan walks over before it stops: back to back from `pos`, each
    valid and numbered above the one before. -/
inductive Whole : Nat → Option Nat → List Record → Nat → Prop where
  | nil {pos : Nat} {after : Option Nat} : Whole pos after [] pos
  | cons {pos stop : Nat} {after : Option Nat} {r : Record} {rs : List Record}
      (h : nextRecord xxh3 bytes pos = .ok (.record r)) (hseq : ∀ l ∈ after, l < r.firstSeq)
      (hrest : Whole (pos + r.len) (some r.lastSeq) rs stop) : Whole pos after (r :: rs) stop

variable {pos stop : Nat} {after : Option Nat} {rs : List Record}

theorem Whole.stop_le (h : Whole xxh3 bytes pos after rs stop) (hpos : pos ≤ bytes.length) :
    stop ≤ bytes.length := by
  induction h with
  | nil => exact hpos
  | cons h hseq hrest ih => exact ih (nextRecord_record h).2.2.1

/-- The scan passes every boundary, with the last number before it. -/
theorem Whole.scan_eq (h : Whole xxh3 bytes pos after rs stop) :
    ∃ n, scan xxh3 bytes pos after
      = scanGo xxh3 bytes (bytes.length + 1) ⟨stop, Validated.lastSeq after rs, n, none⟩ := by
  have hgo : ∀ n fuel, bytes.length < pos + fuel → ∃ n',
      scanGo xxh3 bytes fuel ⟨pos, after, n, none⟩
        = scanGo xxh3 bytes (bytes.length + 1) ⟨stop, Validated.lastSeq after rs, n', none⟩ := by
    induction h with
    | nil =>
      intro n fuel hfuel
      exact ⟨n, scanGo_fuel _ hfuel (by simp only; omega)⟩
    | @cons pos stop after r rs h hseq hrest ih =>
      intro n fuel hfuel
      cases fuel with
      | zero =>
        have := (nextRecord_record h).2.2.1
        omega
      | succ fuel =>
        have hlen := r.len_pos
        have hasc : after.any (fun l => r.firstSeq ≤ l) = false := by
          cases after with
          | none => rfl
          | some l => simpa using hseq l rfl
        obtain ⟨n', hn'⟩ := ih (n + r.opCount) fuel (by omega)
        refine ⟨n', ?_⟩
        rw [scanGo, h]
        simp only [hasc, Bool.false_eq_true, if_false]
        exact hn'
  exact hgo 0 _ (by omega)

variable (xxh3 bytes) in
/-- The record at `b`, if there is one, is numbered above the last one before. -/
def Rises (rs : List Record) (b : Nat) : Prop :=
  ∀ r, nextRecord xxh3 bytes b = .ok (.record r) →
    ∀ l ∈ rs.getLast?.map Record.lastSeq, l < r.firstSeq

/-- The number a scan starts above is of no account where the first record is
    numbered above it. -/
theorem scanGo_after {fuel n : Nat} {after : Option Nat}
    (h : ∀ r, nextRecord xxh3 bytes pos = .ok (.record r) → ∀ l ∈ after, l < r.firstSeq) :
    scanGo xxh3 bytes fuel ⟨pos, after, n, none⟩ =
      { scanGo xxh3 bytes fuel ⟨pos, none, n, none⟩ with
        lastSeq := (scanGo xxh3 bytes fuel ⟨pos, after, n, none⟩).lastSeq } := by
  cases fuel with
  | zero => rfl
  | succ fuel =>
    rw [scanGo, scanGo]
    simp only
    cases hn : nextRecord xxh3 bytes pos with
    | error e => rfl
    | ok next =>
      cases next with
      | torn => rfl
      | record r =>
        have hasc : after.any (fun l => r.firstSeq ≤ l) = false := by
          cases after with
          | none => rfl
          | some l => simpa using h r hn l rfl
        simp [hasc]

/-- Behind a boundary where the numbers rise, the tail scan ends where the whole
    one does, with the same verdict. -/
theorem tail_of_rises {b : Nat} (hlen : headerLen ≤ bytes.length)
    (hw : Whole xxh3 bytes headerLen none rs b) (h : Rises xxh3 bytes rs b) :
    (scan xxh3 bytes headerLen none).stop = b + (scan xxh3 (bytes.drop b) 0 none).stop ∧
      (scan xxh3 bytes headerLen none).corrupt.map Error.kind
        = (scan xxh3 (bytes.drop b) 0 none).corrupt.map Error.kind := by
  have hb := hw.stop_le hlen
  obtain ⟨n, hscan⟩ := hw.scan_eq
  rw [Validated.lastSeq_none] at hscan
  have hafter := @scanGo_after xxh3 bytes b (bytes.length + 1) n _ h
  have hops := @scanGo_ops xxh3 bytes (bytes.length + 1) ⟨b, none, 0, none⟩ n
  have hdrop := @scanGo_drop xxh3 bytes b hb ((bytes.drop b).length + 1) 0 0 none
  have hfuel : scanGo xxh3 bytes ((bytes.drop b).length + 1) ⟨b, none, 0, none⟩
      = scanGo xxh3 bytes (bytes.length + 1) ⟨b, none, 0, none⟩ :=
    scanGo_fuel _ (by rw [List.length_drop]; simp only; omega) (by simp only; omega)
  rw [Nat.add_zero b, hfuel] at hdrop
  rw [hscan, hafter]
  exact ⟨hops.1.trans hdrop.1, (congrArg (Option.map Error.kind) hops.2).trans hdrop.2⟩

/-- Where they fall back, the whole scan stops at the boundary and the tail scan
    does not. -/
theorem tail_of_not_rises {b : Nat} (hlen : headerLen ≤ bytes.length)
    (hw : Whole xxh3 bytes headerLen none rs b) (h : ¬Rises xxh3 bytes rs b) :
    (scan xxh3 bytes headerLen none).stop = b ∧
      (scan xxh3 bytes headerLen none).corrupt.map Error.kind = some .corrupt ∧
      0 < (scan xxh3 (bytes.drop b) 0 none).stop := by
  have hb := hw.stop_le hlen
  unfold Rises at h
  push Not at h
  obtain ⟨r, hr, l, hl, hfall⟩ := h
  obtain ⟨n, hscan⟩ := hw.scan_eq
  rw [Validated.lastSeq_none, Option.mem_def.mp hl, scanGo, hr] at hscan
  simp only [Option.any_some, hfall, decide_true, if_true] at hscan
  refine ⟨by rw [hscan], by rw [hscan]; rfl, ?_⟩
  -- on its own the record is taken
  have hsame := nextRecord_drop xxh3 bytes hb 0
  rw [Nat.add_zero, hr] at hsame
  cases hn : nextRecord xxh3 (bytes.drop b) 0 with
  | error e => rw [hn] at hsame; cases hsame
  | ok next =>
    cases next with
    | torn => rw [hn] at hsame; cases hsame
    | record r' =>
      have hone : Whole xxh3 (bytes.drop b) 0 none [r'] (0 + r'.len) :=
        .cons hn (by simp) .nil
      obtain ⟨m, hm⟩ := hone.scan_eq
      have hstop : ∀ fuel out, out.stop ≤ (scanGo xxh3 (bytes.drop b) fuel out).stop := by
        intro fuel
        induction fuel with
        | zero => intro out; exact le_rfl
        | succ fuel ih =>
          intro out
          rw [scanGo]
          split
          · split_ifs
            · exact le_rfl
            · refine le_trans ?_ (ih _)
              simp
          · exact le_rfl
          · exact le_rfl
      have := hstop ((bytes.drop b).length + 1) ⟨0 + r'.len, Validated.lastSeq none [r'], m, none⟩
      have hlen' := r'.len_pos
      rw [hm]
      simp only at this
      omega

/-- The two scans agree exactly where the numbers rise across the boundary. -/
theorem tail_agrees_iff {b : Nat} (hlen : headerLen ≤ bytes.length)
    (hw : Whole xxh3 bytes headerLen none rs b) :
    ((scan xxh3 bytes headerLen none).stop = b + (scan xxh3 (bytes.drop b) 0 none).stop ∧
      ((scan xxh3 bytes headerLen none).corrupt.isSome
        ↔ (scan xxh3 (bytes.drop b) 0 none).corrupt.isSome)) ↔ Rises xxh3 bytes rs b := by
  constructor
  · rintro ⟨hstop, -⟩
    by_contra h
    obtain ⟨hb, -, hpos⟩ := tail_of_not_rises hlen hw h
    omega
  · intro h
    obtain ⟨hstop, hkind⟩ := tail_of_rises hlen hw h
    refine ⟨hstop, ?_⟩
    have := congrArg Option.isSome hkind
    rw [Option.isSome_map, Option.isSome_map] at this
    rw [this]

/-- `committed_len` is where the whole scan ends. -/
theorem committedLen_eq {gen : UInt64} (h : parseHeader xxh3 bytes = .ok gen) :
    committedLen xxh3 bytes = (scan xxh3 bytes headerLen none).stop := by
  have hstart : Whole xxh3 bytes headerLen none [] headerLen := .nil
  have hrises : Rises xxh3 bytes [] headerLen := by
    intro r _ l hl
    cases hl
  rw [committedLen, h, (tail_of_rises (headerLen_le_of_parseHeader h) hstart hrises).1]
  rfl

end tail

end Wal

end GraphR
