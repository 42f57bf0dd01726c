import GraphR.Store.Safe

/-! # The sums of replay and open, in 64 bits

    `scan`, `replay` and `buildGeneration` compute sequence numbers in `Nat`.
    Here the same functions add as the source does: a sum past `u64::MAX` is a
    fault (a panic with overflow checks; without them the sum wraps).

    `next_record` admits a record whose last number is `u64::MAX`, but
    `last_seq` adds `op_count` before it subtracts one, and `next_seq` adds one to
    the last number: both need the number after the last one to fit. -/

namespace GraphR

open Wal ByteLib BaseFile

/-- `a + b` in `u64`; `none` when it does not fit. -/
def addU64 (a b : Nat) : Option Nat := if a + b < 2 ^ 64 then some (a + b) else none

theorem addU64_eq_some {a b c : Nat} : addU64 a b = some c ↔ a + b < 2 ^ 64 ∧ c = a + b := by
  unfold addU64
  by_cases h : a + b < 2 ^ 64
  · rw [if_pos h, Option.some.injEq]
    exact ⟨fun heq => ⟨h, heq.symm⟩, fun heq => heq.2.symm⟩
  · rw [if_neg h]
    exact ⟨fun heq => (nomatch heq), fun heq => absurd heq.1 h⟩

namespace Wal

/-! ## Records and the scan -/

/-- `last_seq`: the sum first, then minus one. -/
def Record.lastSeqU64 (r : Record) : Option Nat :=
  (addU64 r.firstSeq r.opCount).map fun n => n - 1

/-- The numbers `ops` gives the record's ops. -/
def Record.opSeqsU64 (r : Record) : Option (List Nat) :=
  (List.range r.opCount).mapM fun i => addU64 r.firstSeq i

section checksum
variable (xxh3 : Bytes → UInt64)

def scanGoU64 (bytes : Bytes) : Nat → Scan → Option Scan
  | 0, out => some out
  | fuel + 1, out =>
    match nextRecord xxh3 bytes out.stop with
    | .ok (.record r) =>
      if out.lastSeq.any (fun l => r.firstSeq ≤ l) then
        some { out with corrupt := some (.corrupt ("wal record at byte " ++ toString out.stop
            ++ ": sequence regression")) }
      else do
        let last ← r.lastSeqU64
        scanGoU64 bytes fuel
          { out with stop := out.stop + r.len, lastSeq := some last, ops := out.ops + r.opCount }
    | .ok .torn => some out
    | .error e => some { out with corrupt := some e }

/-- `scan`. Positions and the op count stay below the length of `bytes`. -/
def scanU64 (bytes : Bytes) (pos : Nat) (after : Option Nat) : Option Scan :=
  scanGoU64 xxh3 bytes (bytes.length + 1) ⟨pos, after, 0, none⟩

/-- `replay`. -/
def replayU64 (image : Bytes) : Option (Except Error Replay) :=
  match parseHeader xxh3 image with
  | .error e => some (.error e)
  | .ok baseGeneration => do
    let scanned ← scanU64 xxh3 image headerLen none
    match scanned.corrupt with
    | some e => some (.error e)
    | none => some (.ok ⟨baseGeneration, scanned.stop, image⟩)

end checksum

end Wal

/-! ## Opening images -/

section opening
variable (xxh3 : Bytes → UInt64)

/-- `build_generation`, with the next sequence number beside what it built. -/
def buildGenerationU64 (base wal : Bytes) : Option (Except Error (Built × Nat)) :=
  match BaseDir.parse xxh3 base with
  | .error e => some (.error e)
  | .ok dir => do
    let applied := dir.header.walAppliedSeq.toNat
    -- `folded` is built before the log is looked at
    let folded ← addU64 applied 1
    if wal.isEmpty then some (.ok (⟨dir, [], .empty, 0⟩, folded))
    else
      match parseHeader xxh3 wal with
      | .error e => some (.error e)
      | .ok generation =>
        if dir.header.generation < generation then some (.ok (⟨dir, [], .newer, 0⟩, folded))
        else if generation < dir.header.generation then
          some (.ok (⟨dir, [], .stale, Wal.headerLen⟩, folded))
        else do
          let scanned ← scanU64 xxh3 wal Wal.headerLen none
          match scanned.corrupt with
          | some e => some (.error e)
          | none =>
            let next ← addU64 (scanned.lastSeq.elim applied fun l => max l applied) 1
            let image := wal.take scanned.stop
            let rs := records image Wal.headerLen image.length
            -- `publish_above` counts with `last_seq`, `publish_records` numbers the ops
            let _ ← rs.mapM Record.lastSeqU64
            let _ ← rs.mapM Record.opSeqsU64
            let ops := opsAbove applied rs
            if ops ≠ [] ∧ (arenaCapacity < ops.length ∨ offMask < image.length) then
              some (.error (.busy "overlay arena full during replay"))
            else
              some (.ok (⟨dir, ops, .current (scanned.stop < wal.length), scanned.stop⟩, next))

/-- `open_image`. -/
def openImageU64 (base wal : Bytes) : Option (Except Error (Built × Nat)) := do
  match ← buildGenerationU64 xxh3 base wal with
  | .error e => some (.error e)
  | .ok built =>
    if built.1.log = .newer then
      some (.error (.busy "log image is newer than its base; fetch the base again"))
    else some (.ok built)

/-- One more than the highest of what the base has folded and the last record
    the log holds. -/
def Built.nextSeq (b : Built) (wal : Bytes) : Nat :=
  1 + max b.dir.header.walAppliedSeq.toNat
    (((records wal Wal.headerLen b.goodLen).getLast?.map Record.lastSeq).getD 0)

/-- Every sum over the log, and over the base it is opened with, comes out as
    in `Nat`. -/
structure ExactSums (base wal : Bytes) : Prop where
  lastSeq : ∀ pos r, nextRecord xxh3 wal pos = .ok (.record r) → r.lastSeqU64 = some r.lastSeq
  opSeqs : ∀ pos r, nextRecord xxh3 wal pos = .ok (.record r) →
    r.opSeqsU64 = some ((List.range r.opCount).map fun i => r.firstSeq + i)
  scan : ∀ pos after, scanU64 xxh3 wal pos after = some (scan xxh3 wal pos after)
  replay : replayU64 xxh3 wal = some (replay xxh3 wal)
  build : buildGenerationU64 xxh3 base wal
    = some ((buildGeneration xxh3 base wal).map fun b => (b, b.nextSeq wal))
  image : openImageU64 xxh3 base wal
    = some ((openImage xxh3 base wal).map fun b => (b, b.nextSeq wal))

end opening

/-! ## When the sums are exact -/

section exact
variable {xxh3 : Bytes → UInt64} {base wal : Bytes}

/-- What the range check of `next_record` leaves: a last number that fits. -/
theorem seqs_of_nextRecord {pos : Nat} {r : Record}
    (h : nextRecord xxh3 wal pos = .ok (.record r)) :
    0 < r.opCount ∧ r.firstSeq + (r.opCount - 1) < 2 ^ 64 := by
  have hcheck := checkRecord_of_nextRecord h
  unfold checkRecord at hcheck
  split_ifs at hcheck with hres hseq
  push Not at hseq
  obtain ⟨-, hcount, hfits⟩ := hseq
  have hpos : (u32At r.bytes 16).toNat ≠ 0 := fun h0 => hcount (UInt32.toNat_inj.mp h0)
  unfold seqOverflows at hfits
  rw [Record.opCount, Record.firstSeq]
  refine ⟨Nat.pos_of_ne_zero hpos, ?_⟩
  simpa using hfits

/-- The number after the record's last one fits. -/
def Room (r : Record) : Prop := r.firstSeq + r.opCount < 2 ^ 64

theorem lastSeqU64_eq_some_iff {r : Record} : r.lastSeqU64 = some r.lastSeq ↔ Room r := by
  unfold Record.lastSeqU64 Room addU64
  by_cases h : r.firstSeq + r.opCount < 2 ^ 64
  · rw [if_pos h]
    exact ⟨fun _ => h, fun _ => rfl⟩
  · rw [if_neg h]
    exact ⟨fun heq => (nomatch heq), fun hroom => absurd hroom h⟩

/-- The ops' own numbers never overflow. -/
theorem opSeqsU64_of_nextRecord {pos : Nat} {r : Record}
    (h : nextRecord xxh3 wal pos = .ok (.record r)) :
    r.opSeqsU64 = some ((List.range r.opCount).map fun i => r.firstSeq + i) := by
  have hfits := (seqs_of_nextRecord h).2
  apply FaultLib.mapM_eq_some
  intro i hi
  have hlt : i < r.opCount := List.mem_range.mp hi
  exact addU64_eq_some.mpr ⟨by omega, rfl⟩

theorem scanGoU64_eq (hroom : ∀ pos r, nextRecord xxh3 wal pos = .ok (.record r) → Room r)
    (fuel : Nat) (out : Scan) : scanGoU64 xxh3 wal fuel out = some (scanGo xxh3 wal fuel out) := by
  induction fuel generalizing out with
  | zero => rfl
  | succ fuel ih =>
    rw [scanGoU64, scanGo]
    cases hn : nextRecord xxh3 wal out.stop with
    | error e => rfl
    | ok next =>
      cases next with
      | torn => rfl
      | record r =>
        simp only [lastSeqU64_eq_some_iff.mpr (hroom _ r hn), Option.bind_eq_bind,
          Option.bind_some, ih]
        split_ifs <;> rfl

theorem scanU64_eq (hroom : ∀ pos r, nextRecord xxh3 wal pos = .ok (.record r) → Room r)
    (pos : Nat) (after : Option Nat) :
    scanU64 xxh3 wal pos after = some (scan xxh3 wal pos after) :=
  scanGoU64_eq hroom _ _

theorem replayU64_eq (hroom : ∀ pos r, nextRecord xxh3 wal pos = .ok (.record r) → Room r) :
    replayU64 xxh3 wal = some (replay xxh3 wal) := by
  unfold replayU64 replay
  cases parseHeader xxh3 wal with
  | error e => rfl
  | ok generation =>
    simp only [scanU64_eq hroom, Option.bind_some, bind, Except.bind]
    cases (scan xxh3 wal headerLen none).corrupt <;> rfl

/-- Every record of a run was returned by `next_record`. -/
theorem nextRecord_of_validated {pos stop : Nat} {after : Option Nat} {rs : List Record}
    (h : Validated xxh3 wal pos after rs stop) :
    ∀ r ∈ rs, ∃ p, nextRecord xxh3 wal p = .ok (.record r) := by
  induction h with
  | torn h => simp
  | @step pos stop after r rs h hseq hrest ih =>
    intro r' hr'
    rcases List.mem_cons.mp hr' with rfl | hr'
    · exact ⟨pos, h⟩
    · exact ih r' hr'

/-- With no record behind the header, the number after what the base folded. -/
theorem nextSeq_of_short {b : Built} (h : b.goodLen ≤ Wal.headerLen) :
    b.nextSeq wal = b.dir.header.walAppliedSeq.toNat + 1 := by
  have hnone : records wal Wal.headerLen b.goodLen = [] := by
    unfold records
    cases hfuel : wal.length with
    | zero => rfl
    | succ fuel =>
      have hshort : min b.goodLen (fuel + 1) - min Wal.headerLen (min b.goodLen (fuel + 1))
          < minRecord := by
        have hmin : minRecord = 48 := rfl
        omega
      rw [recordsGo, nextTrusted, if_pos hshort]
  rw [Built.nextSeq, hnone]
  simp [Nat.add_comm]

/-- The next number fits, and is one more than the highest so far. -/
theorem addU64_next {applied stop : Nat} {rs : List Record} (hbase : applied + 1 < 2 ^ 64)
    (hroom : ∀ pos r, nextRecord xxh3 wal pos = .ok (.record r) → Room r)
    (hrs : Validated xxh3 wal Wal.headerLen none rs stop) :
    addU64 ((Validated.lastSeq none rs).elim applied fun l => max l applied) 1
      = some (1 + max applied ((rs.getLast?.map Record.lastSeq).getD 0)) := by
  rw [Validated.lastSeq_none, addU64_eq_some]
  cases hlast : rs.getLast? with
  | none => exact ⟨by simpa using hbase, by simp [Nat.add_comm]⟩
  | some r =>
    obtain ⟨p, hp⟩ := nextRecord_of_validated hrs r (List.mem_of_getLast? hlast)
    have hfits : r.firstSeq + r.opCount < 2 ^ 64 := hroom p r hp
    have hpos := (seqs_of_nextRecord hp).1
    have hle : r.lastSeq + 1 < 2 ^ 64 := by
      rw [Record.lastSeq]
      omega
    simp only [Option.map_some, Option.elim_some, Option.getD_some]
    rw [max_comm r.lastSeq]
    refine ⟨?_, Nat.add_comm _ _⟩
    rcases max_choice applied r.lastSeq with h | h
    · rw [h]
      exact hbase
    · rw [h]
      exact hle

theorem buildGenerationU64_eq {dir : BaseDir} (hdir : BaseDir.parse xxh3 base = .ok dir)
    (hbase : dir.header.walAppliedSeq.toNat + 1 < 2 ^ 64)
    (hroom : ∀ pos r, nextRecord xxh3 wal pos = .ok (.record r) → Room r) :
    buildGenerationU64 xxh3 base wal
      = some ((buildGeneration xxh3 base wal).map fun b => (b, b.nextSeq wal)) := by
  have hfolded : addU64 dir.header.walAppliedSeq.toNat 1
      = some (dir.header.walAppliedSeq.toNat + 1) := addU64_eq_some.mpr ⟨hbase, rfl⟩
  unfold buildGenerationU64 buildGeneration
  simp only [hdir, hfolded, Option.bind_some, bind, Except.bind]
  by_cases hempty : wal.isEmpty
  · simp only [hempty, if_true, Except.map]
    rw [nextSeq_of_short (by simp [Wal.headerLen])]
  · simp only [hempty, Bool.false_eq_true, if_false]
    cases hgen : parseHeader xxh3 wal with
    | error e => rfl
    | ok generation =>
      simp only
      by_cases hnewer : dir.header.generation < generation
      · simp only [hnewer, if_true, Except.map]
        rw [nextSeq_of_short (by simp [Wal.headerLen])]
      · by_cases hstale : generation < dir.header.generation
        · simp only [hnewer, if_false, hstale, if_true, Except.map]
          rw [nextSeq_of_short le_rfl]
        · simp only [hnewer, hstale, if_false, scanU64_eq hroom, Option.bind_some]
          cases hcorrupt : (scan xxh3 wal Wal.headerLen none).corrupt with
          | some e => rfl
          | none =>
            -- the run the scan followed names the records, and their last number
            obtain ⟨rs, hrs⟩ := validated_of_scan hcorrupt
            generalize (scan xxh3 wal Wal.headerLen none).stop = stop at hrs
            have hlen : Wal.headerLen ≤ wal.length := headerLen_le_of_parseHeader hgen
            have hmem := nextRecord_of_validated hrs
            have hends : rs.mapM Record.lastSeqU64 = some (rs.map Record.lastSeq) := by
              apply FaultLib.mapM_eq_some
              intro r hr
              obtain ⟨p, hp⟩ := hmem r hr
              exact lastSeqU64_eq_some_iff.mpr (hroom p r hp)
            have hnums : rs.mapM Record.opSeqsU64
                = some (rs.map fun r => (List.range r.opCount).map fun i => r.firstSeq + i) := by
              apply FaultLib.mapM_eq_some
              intro r hr
              obtain ⟨p, hp⟩ := hmem r hr
              exact opSeqsU64_of_nextRecord hp
            have hnext := addU64_next hbase hroom hrs
            simp only [hrs.scan_eq, records_take hrs hlen, hends, hnums, hnext, Option.bind_some]
            split_ifs with hfull
            · rfl
            · simp only [Except.map, Built.nextSeq, hrs.records_eq hlen]

theorem openImageU64_eq (h : buildGenerationU64 xxh3 base wal
      = some ((buildGeneration xxh3 base wal).map fun b => (b, b.nextSeq wal))) :
    openImageU64 xxh3 base wal
      = some ((openImage xxh3 base wal).map fun b => (b, b.nextSeq wal)) := by
  unfold openImageU64 openImage
  rw [h]
  cases buildGeneration xxh3 base wal with
  | error e => rfl
  | ok b =>
    simp only [Except.map, Option.bind_some, bind, Except.bind]
    unfold FaultLib.check
    by_cases hnewer : b.log = .newer
    · simp [hnewer]
    · simp [hnewer]

/-- The first sum of `build_generation` decides for the base. -/
theorem room_of_build {dir : BaseDir} (hdir : BaseDir.parse xxh3 base = .ok dir)
    {out : Except Error (Built × Nat)} (h : buildGenerationU64 xxh3 base wal = some out) :
    dir.header.walAppliedSeq.toNat + 1 < 2 ^ 64 := by
  unfold buildGenerationU64 at h
  simp only [hdir] at h
  cases hfolded : addU64 dir.header.walAppliedSeq.toNat 1 with
  | none => simp [hfolded] at h
  | some n => exact (addU64_eq_some.mp hfolded).1

/-- Over a base that parses, the sums of `scan`, `replay`, `last_seq`,
    `build_generation` and `open_image` are exact if and only if the number after
    what the base folded, and after each record of the log, still fits. -/
theorem sums_exact_iff (xxh3 : Bytes → UInt64) (base wal : Bytes) (dir : BaseDir)
    (hdir : BaseDir.parse xxh3 base = .ok dir) :
    ExactSums xxh3 base wal ↔
      dir.header.walAppliedSeq.toNat + 1 < 2 ^ 64 ∧
        ∀ pos r, nextRecord xxh3 wal pos = .ok (.record r) → r.firstSeq + r.opCount < 2 ^ 64 := by
  constructor
  · intro h
    exact ⟨room_of_build hdir h.build, fun pos r hr => lastSeqU64_eq_some_iff.mp (h.lastSeq pos r hr)⟩
  · rintro ⟨hbase, hroom⟩
    have hbuild := buildGenerationU64_eq hdir hbase hroom
    exact {
      lastSeq := fun pos r hr => lastSeqU64_eq_some_iff.mpr (hroom pos r hr)
      opSeqs := fun _ _ hr => opSeqsU64_of_nextRecord hr
      scan := scanU64_eq hroom
      replay := replayU64_eq hroom
      build := hbuild
      image := openImageU64_eq hbuild }

end exact

theorem oneNodeBase_parses :
    ∃ dir, BaseDir.parse (fun _ => 0) oneNodeBase = .ok dir ∧ dir.header.walAppliedSeq = 0 := by
  have hok : (BaseDir.parse (fun _ => 0) oneNodeBase).toOption.any
      (fun d => d.header.walAppliedSeq = 0) = true := by
    decide +kernel
  cases h : BaseDir.parse (fun _ => 0) oneNodeBase with
  | error e => simp [h, Except.toOption] at hok
  | ok d => exact ⟨d, rfl, by simpa [h, Except.toOption] using hok⟩

/-- One record fits behind the header of `removeLog`, and its number is 1. -/
theorem sums_exact_removeLog : ExactSums (fun _ => 0) oneNodeBase removeLog := by
  obtain ⟨dir, hdir, happlied⟩ := oneNodeBase_parses
  have hlen : removeLog.length = 112 := by decide +kernel
  have hall : ∀ pos < 65, (match nextRecord (fun _ => 0) removeLog pos with
      | .ok (.record r) => decide (r.firstSeq + r.opCount < 2 ^ 64)
      | _ => true) = true := by
    decide +kernel
  refine (sums_exact_iff _ oneNodeBase removeLog dir hdir).mpr ⟨by rw [happlied]; decide, ?_⟩
  intro pos r hr
  have hin := (nextRecord_record hr).2.2.1
  have hmin := r.len_pos
  have := hall pos (by omega)
  rw [hr] at this
  simpa using this

/-- A log whose one record has the last number there is. -/
def lastNumberLog : Bytes :=
  encodeHeader (fun _ => 0) 1 0 ++ (removeRecord 18446744073709551615 7 (by decide)).bytes fun _ => 0

/-- `next_record` admits the record, and then the open faults on it. -/
theorem lastNumber_overflows :
    (∃ r, nextRecord (fun _ => 0) lastNumberLog Wal.headerLen = .ok (.record r) ∧
      r.firstSeq = 2 ^ 64 - 1 ∧ r.opCount = 1 ∧ r.lastSeqU64 = none) ∧
    (BaseDir.parse (fun _ => 0) oneNodeBase).isOk = true ∧
    openImageU64 (fun _ => 0) oneNodeBase lastNumberLog = none ∧
    ¬ExactSums (fun _ => 0) oneNodeBase lastNumberLog := by
  have hnone : openImageU64 (fun _ => 0) oneNodeBase lastNumberLog = none := by
    rw [← Option.isNone_iff_eq_none]
    decide +kernel
  refine ⟨?_, ?_, hnone, ?_⟩
  · have hrec : (match nextRecord (fun _ => 0) lastNumberLog Wal.headerLen with
        | .ok (.record r) => decide (r.firstSeq = 2 ^ 64 - 1 ∧ r.opCount = 1 ∧ r.lastSeqU64 = none)
        | _ => false) = true := by
      decide +kernel
    cases h : nextRecord (fun _ => 0) lastNumberLog Wal.headerLen with
    | error e => simp [h] at hrec
    | ok next =>
      cases next with
      | torn => simp [h] at hrec
      | record r =>
        rw [h] at hrec
        exact ⟨r, rfl, of_decide_eq_true hrec⟩
  · decide +kernel
  · intro h
    rw [h.image] at hnone
    cases hnone

end GraphR
