import GraphR.Format.Wal.RoundTrip
import GraphR.Library.Run

/-! # Staging: any sequence of calls on a `RecordBuf`

    `Session` is a buffer and the marks taken on it, and `Session.call` one call
    as the source makes it. What the calls are for is a list of ops: `OpList`
    keeps the ops that survive, and what each mark stood for. A session is
    `Faithful` to its op list when the buffer is those ops and nothing else,
    every one of them passes `validate_op`, and a call is refused for the
    limits only. The count is a `u32` that `finish` increments unchecked, so a
    session stays faithful exactly as long as fewer than `2 ^ 32` ops are
    staged at once (`staging_faithful_iff`). -/

namespace GraphR.Wal

open ByteLib

/-! ## What a push asks of its arguments -/

/-- The limits a push checks, which do not depend on what is staged. -/
def Push.Fits : Push → Prop
  | .upsert doc _ => doc.fits
  | .segments _ segs => segsFit segs
  | .edges _ es => edgesFit es
  | .touch _ t => strLen (t.etag.getD "") ≤ maxLabel
  | .remove _ => True
  | .pin _ _ => True
  | .attrs _ as => attrsFit (as.map fun (k, v) => (k, [v, "", ""]))
  | .attrParts _ as => attrsFit as

theorem pushAttrParts_isOk {key : UrlKey} {as : List AttrParts} (b : RecordBuf) :
    (b.pushAttrParts key as).isOk = true ↔ attrsFit as := by
  constructor
  · intro h
    cases hp : b.pushAttrParts key as with
    | error e =>
      rw [hp] at h
      exact absurd h (by simp [Except.isOk, Except.toBool])
    | ok b' => exact (pushAttrParts_ok hp).1
  · rintro ⟨hcount, total, htotal, hmax⟩
    rw [RecordBuf.pushAttrParts, if_neg (by omega), htotal]
    simp only
    rw [if_neg (by omega)]
    rfl

/-- A push is accepted for its limits only, whatever the buffer holds. -/
theorem apply_isOk (p : Push) (b : RecordBuf) : (p.apply b).isOk = true ↔ p.Fits := by
  cases p with
  | upsert doc flags =>
    have hempty : strLen "" ≤ maxLabel := by simp [strLen]
    have hopt : (optStrings doc).any (fun s => maxLabel < strLen s) = false ↔
        strLen (doc.title.getD "") ≤ maxLabel ∧ strLen (doc.snippet.getD "") ≤ maxLabel ∧
          strLen (doc.etag.getD "") ≤ maxLabel := by
      have hsome : ∀ s : Option String,
          (∀ t, s = some t → strLen t ≤ maxLabel) ↔ strLen (s.getD "") ≤ maxLabel := by
        intro s
        cases s with
        | none => simpa using hempty
        | some t => simp
      rw [← hsome, ← hsome, ← hsome]
      simp only [optStrings, List.any_eq_false, List.mem_filterMap, List.mem_cons,
        List.not_mem_nil, or_false, id_eq, decide_eq_true_eq, Nat.not_lt]
      constructor
      · intro h
        exact ⟨fun t ht => h t ⟨_, .inl ht.symm, rfl⟩,
          fun t ht => h t ⟨_, .inr (.inl ht.symm), rfl⟩,
          fun t ht => h t ⟨_, .inr (.inr ht.symm), rfl⟩⟩
      · rintro ⟨h1, h2, h3⟩ t ⟨s, hs, rfl⟩
        rcases hs with hs | hs | hs
        · exact h1 t hs.symm
        · exact h2 t hs.symm
        · exact h3 t hs.symm
    simp only [Push.apply, RecordBuf.pushUpsert, Push.Fits, DocRecord.fits, docStrings,
      List.mem_cons, List.not_mem_nil, or_false, forall_eq_or_imp, forall_eq]
    split_ifs with hurl hany
    · simp only [Except.isOk, Except.toBool, Bool.false_eq_true, false_iff]
      rintro ⟨h0, h1, -⟩
      omega
    · simp only [Except.isOk, Except.toBool, Bool.false_eq_true, false_iff]
      rintro ⟨-, -, h⟩
      exact absurd hany (by simp [hopt.mpr h])
    · simp only [Except.isOk, Except.toBool, true_iff]
      exact ⟨by omega, by omega, hopt.mp (by simpa using hany)⟩
  | segments key segs =>
    simp only [Push.apply, RecordBuf.pushSegments, Push.Fits, segsFit]
    split_ifs with hcount hlabel
    · simp [Except.isOk, Except.toBool]
      omega
    · simp only [Except.isOk, Except.toBool, Bool.false_eq_true, false_iff]
      rintro ⟨-, h⟩
      obtain ⟨s, hs, hlt⟩ := List.any_eq_true.mp hlabel
      have := h s hs
      simp only [decide_eq_true_eq] at hlt
      omega
    · simp only [Except.isOk, Except.toBool, true_iff]
      refine ⟨by omega, ?_⟩
      intro s hs
      by_contra hlt
      exact hlabel (List.any_eq_true.mpr ⟨s, hs, by simpa using hlt⟩)
  | edges key es =>
    simp only [Push.apply, RecordBuf.pushEdges, Push.Fits, edgesFit]
    split_ifs with hcount hasc
    · simp [Except.isOk, Except.toBool]
      omega
    · simp [Except.isOk, Except.toBool, hasc]
    · simp only [Except.isOk, Except.toBool, true_iff]
      exact ⟨by omega, by simpa using hasc⟩
  | touch key t =>
    simp only [Push.apply, RecordBuf.pushTouch, Push.Fits]
    split_ifs with hetag
    · simp [Except.isOk, Except.toBool]
      omega
    · simp [Except.isOk, Except.toBool]
      omega
  | remove key => simp [Push.apply, Push.Fits, Except.isOk, Except.toBool]
  | pin key pinned => simp [Push.apply, Push.Fits, Except.isOk, Except.toBool]
  | attrs key as => exact pushAttrParts_isOk b
  | attrParts key as => exact pushAttrParts_isOk b

/-! ## The calls -/

/-- One call on a buffer. A truncation goes back to the `i`-th mark taken. -/
inductive Call where
  | push (p : Push)
  | mark
  | truncate (i : Nat)
  | sealAt (firstSeq : UInt64)

/-- What `self.ops += 1` leaves in the `u32` the count is kept in. -/
def RecordBuf.narrow (b : RecordBuf) : RecordBuf := ⟨b.buf, b.ops % 2 ^ 32⟩

/-- A buffer, and the marks taken on it so far. -/
structure Session where
  buf : RecordBuf
  marks : List Mark

namespace Session

def new : Session := ⟨RecordBuf.new, []⟩

variable (xxh3 : Bytes → UInt64)

/-- One call. Every check comes before the first write, so a refusal carries
    its error and no buffer. -/
def call (s : Session) : Call → Except Error Session
  | .push p => do
    let b ← p.apply s.buf
    .ok { s with buf := b.narrow }
  | .mark => .ok { s with marks := s.marks ++ [s.buf.mark] }
  | .truncate i =>
    match s.marks[i]? with
    | some m => .ok { s with buf := s.buf.truncate m }
    | none => .ok s
  | .sealAt firstSeq => do
    let b ← s.buf.seal xxh3 firstSeq
    .ok { s with buf := b }

/-- What a call leaves behind, accepted or refused. -/
def next (s : Session) (c : Call) : Session :=
  match s.call xxh3 c with
  | .ok s' => s'
  | .error _ => s

end Session

/-! ## The op list -/

/-- What a session is for: the ops that survive, and what each mark stood for. -/
structure OpList where
  ops : List Push
  marks : List (List Push)

namespace OpList

def new : OpList := ⟨[], []⟩

open Classical in
/-- A push appends one op or none, a truncation goes back to what its mark
    stood for, and sealing moves nothing. -/
noncomputable def next (o : OpList) : Call → OpList
  | .push p => if p.Fits then { o with ops := o.ops ++ [p] } else o
  | .mark => { o with marks := o.marks ++ [o.ops] }
  | .truncate i => { o with ops := o.marks.getD i o.ops }
  | .sealAt _ => o

/-- A truncation is to a mark taken earlier, of ops that are all still there. -/
def Allows (o : OpList) : Call → Prop
  | .truncate i => ∃ ps, o.marks[i]? = some ps ∧ ps <+: o.ops
  | _ => True

end OpList

section runs
variable (xxh3 : Bytes → UInt64)

open Classical in
/-- A session and its op list take a call together. -/
noncomputable def stageStep (st : Session × OpList) (c : Call) : Option (Session × OpList) :=
  if st.2.Allows c then some (st.1.next xxh3 c, st.2.next c) else none

/-- A sequence of calls on a new buffer. -/
noncomputable def stageRun (calls : List Call) : Option (Session × OpList) :=
  RunLib.run (stageStep xxh3) (Session.new, OpList.new) calls

/-- The bytes of a list of ops. -/
def opsBytes (ps : List Push) : Bytes := (ps.map Push.bytes).flatten

/-- The buffer is its op list, and refuses a call for the limits alone. -/
structure Faithful (s : Session) (o : OpList) : Prop where
  count : s.buf.ops = o.ops.length
  bytes : (o.ops = [] ∧ s.buf.buf = []) ∨ (o.ops ≠ [] ∧ ∃ hdr : Bytes,
    hdr.length = recordHeaderLen ∧ s.buf.buf = hdr ++ opsBytes o.ops)
  valid : ∀ p ∈ o.ops, ∃ v, validateOp p.bytes = .ok v ∧ v.read = some p.op
  push_accepted : ∀ p, (s.call xxh3 (.push p)).isOk = true ↔ p.Fits
  refused : ∀ c e, s.call xxh3 c = .error e → s.next xxh3 c = s
  seal_refused : ∀ n, (s.call xxh3 (.sealAt n)).isOk = false ↔
    o.ops = [] ∨ maxRecord < s.buf.buf.length ∨ n = 0 ∨
      2 ^ 64 ≤ n.toNat + (o.ops.length - 1)
  seal_accepted : ∀ n s', s.call xxh3 (.sealAt n) = .ok s' → ∀ pre post : Bytes, ∃ r : Record,
    nextRecord xxh3 (pre ++ (s'.buf.buf ++ post)) pre.length = .ok (.record r) ∧
    r.firstSeq = n.toNat ∧ r.opCount = o.ops.length ∧
    (r.ops.map fun p => (p.1, p.2.2.read))
      = (o.ops.zipIdx n.toNat).map fun q => (q.2, some q.1.op)

end runs

/-! ## What the calls keep

    The invariant is `Holds` of the surviving ops, and that each mark is where
    its ops end. It is what one call keeps as long as the count fits. -/

@[simp] theorem opsBytes_append (ps qs : List Push) :
    opsBytes (ps ++ qs) = opsBytes ps ++ opsBytes qs := by
  simp [opsBytes]

/-- Where a mark taken on the ops `ps` stands. -/
def markOf (ps : List Push) : Mark :=
  ⟨if ps = [] then 0 else recordHeaderLen + (opsBytes ps).length, ps.length⟩

/-- A push that fits is one valid op, which reads as what was pushed. -/
theorem Push.Fits.valid {p : Push} (h : p.Fits) :
    ValidOp p.bytes ∧ ∃ v, OpView.trusted p.bytes = some v ∧ v.read = some p.op := by
  have hok := (apply_isOk p RecordBuf.new).mpr h
  cases happ : p.apply RecordBuf.new with
  | error e =>
    rw [happ] at hok
    exact absurd hok (by simp [Except.isOk, Except.toBool])
  | ok b => exact (apply_ok happ).2

structure Staged (s : Session) (o : OpList) : Prop where
  holds : Holds s.buf (o.ops.map Push.bytes)
  cleared : o.ops = [] → s.buf.buf = []
  fits : ∀ p ∈ o.ops, p.Fits
  marks : s.marks = o.marks.map markOf

namespace Staged

variable {s : Session} {o : OpList}

theorem new : Staged Session.new OpList.new :=
  ⟨Holds.new, fun _ => rfl, by simp [OpList.new], rfl⟩

theorem count (h : Staged s o) : s.buf.ops = o.ops.length := by
  simpa using h.holds.ops

theorem bytes (h : Staged s o) :
    (o.ops = [] ∧ s.buf.buf = []) ∨ (o.ops ≠ [] ∧ ∃ hdr : Bytes,
      hdr.length = recordHeaderLen ∧ s.buf.buf = hdr ++ opsBytes o.ops) := by
  by_cases hnil : o.ops = []
  · exact .inl ⟨hnil, h.cleared hnil⟩
  · rcases h.holds.buf with ⟨hmap, -⟩ | ⟨hdr, hlen, hbuf⟩
    · exact absurd (List.map_eq_nil_iff.mp hmap) hnil
    · exact .inr ⟨hnil, hdr, hlen, hbuf⟩

/-- A mark taken now is where the ops end. -/
theorem mark_eq (h : Staged s o) : s.buf.mark = markOf o.ops := by
  rcases h.bytes with ⟨hnil, hbuf⟩ | ⟨hne, hdr, hlen, hbuf⟩
  · simp [RecordBuf.mark, markOf, h.count, hnil, hbuf]
  · simp [RecordBuf.mark, markOf, h.count, hne, hbuf, hlen]

theorem push (h : Staged s o) {p : Push} {b : RecordBuf} (hp : p.apply s.buf = .ok b)
    (hfit : p.Fits) (hcount : o.ops.length + 1 < 2 ^ 32) :
    Staged { s with buf := b.narrow } { o with ops := o.ops ++ [p] } := by
  have hholds := h.holds.apply hp
  have hops : b.ops = o.ops.length + 1 := by simpa using hholds.ops
  have hnarrow : b.narrow = b := by
    rw [RecordBuf.narrow, hops, Nat.mod_eq_of_lt hcount, ← hops]
  rw [hnarrow]
  refine ⟨by simpa using hholds, by simp, ?_, h.marks⟩
  intro q hq
  rcases List.mem_append.mp hq with hq | hq
  · exact h.fits q hq
  · rwa [List.mem_singleton.mp hq]

/-- Going back to ops that are all still there leaves exactly those. -/
theorem truncate (h : Staged s o) {ps : List Push} (hps : ps <+: o.ops) :
    Staged { s with buf := s.buf.truncate (markOf ps) } { o with ops := ps } := by
  have hfits : ∀ p ∈ ps, p.Fits := fun p hp => h.fits p (hps.subset hp)
  by_cases hnil : ps = []
  · -- a mark of no ops clears the buffer, header and all
    subst hnil
    have htrunc : s.buf.truncate (markOf []) = RecordBuf.new := by
      simp [RecordBuf.truncate, markOf, RecordBuf.new]
    rw [htrunc]
    exact ⟨Holds.new, fun _ => rfl, hfits, h.marks⟩
  · obtain ⟨qs, hqs⟩ := hps
    have hne : o.ops ≠ [] := by
      rintro h0
      exact hnil (List.append_eq_nil_iff.mp (hqs.trans h0)).1
    rcases h.bytes with ⟨h0, -⟩ | ⟨-, hdr, hlen, hbuf⟩
    · exact absurd h0 hne
    have hlong : s.buf.buf = (hdr ++ opsBytes ps) ++ opsBytes qs := by
      rw [hbuf, ← hqs, opsBytes_append, List.append_assoc]
    have htake : s.buf.buf.take (recordHeaderLen + (opsBytes ps).length) = hdr ++ opsBytes ps := by
      rw [hlong, List.take_left' (by simp [hlen])]
    have htrunc : s.buf.truncate (markOf ps) = ⟨hdr ++ opsBytes ps, ps.length⟩ := by
      have hlen' : recordHeaderLen + (opsBytes ps).length ≤ s.buf.buf.length := by
        rw [hlong, List.length_append, List.length_append, hlen]
        omega
      have hops : ps.length ≤ s.buf.ops := by
        rw [h.count, ← hqs, List.length_append]
        omega
      rw [RecordBuf.truncate, if_neg (by simpa [markOf] using hnil), markOf, if_neg hnil,
        if_pos ⟨hlen', hops⟩, htake]
    rw [htrunc]
    refine ⟨⟨by simp, .inr ⟨hdr, hlen, rfl⟩, ?_⟩, fun h0 => absurd h0 hnil, hfits, h.marks⟩
    intro c hc
    obtain ⟨p, hp, rfl⟩ := List.mem_map.mp hc
    exact (hfits p hp).valid.1

variable (xxh3 : Bytes → UInt64)

/-- Sealing patches the header and nothing else. -/
theorem sealAt (h : Staged s o) {n : UInt64} {b : RecordBuf} (hs : s.buf.seal xxh3 n = .ok b) :
    Staged { s with buf := b } o := by
  obtain ⟨r, -, hops, hbytes⟩ := h.holds.sealed_bytes xxh3 hs
  have hcount : b.ops = s.buf.ops := by
    unfold RecordBuf.seal at hs
    split_ifs at hs
    cases hs
    rfl
  have hne : o.ops ≠ [] := by
    rintro h0
    exact r.ops_ne (by rw [hops, h0]; rfl)
  refine ⟨⟨hcount.trans h.holds.ops, .inr ⟨r.head ++ putU64 (xxh3 (r.head ++ r.ops.flatten)), ?_, ?_⟩,
    h.holds.valid⟩, fun h0 => absurd h0 hne, h.fits, h.marks⟩
  · simp [recordHeaderLen]
  · rw [hbytes, SealedRecord.bytes, List.append_assoc, hops]

/-- What one call keeps. -/
theorem next (h : Staged s o) {c : Call} (hc : o.Allows c)
    (hcount : (o.next c).ops.length < 2 ^ 32) : Staged (s.next xxh3 c) (o.next c) := by
  cases c with
  | push p =>
    have hok := apply_isOk p s.buf
    cases hp : p.apply s.buf with
    | error e =>
      -- refused: the push does not fit, so neither side moves
      rw [hp] at hok
      have hfit : ¬p.Fits := by simpa [Except.isOk, Except.toBool] using hok
      simpa [Session.next, Session.call, hp, bind, Except.bind, OpList.next, hfit] using h
    | ok b =>
      rw [hp] at hok
      have hfit : p.Fits := by simpa [Except.isOk, Except.toBool] using hok
      simp only [OpList.next, if_pos hfit, List.length_append, List.length_singleton] at hcount
      simpa [Session.next, Session.call, hp, bind, Except.bind, OpList.next, hfit]
        using h.push hp hfit hcount
  | mark =>
    refine ⟨h.holds, h.cleared, h.fits, ?_⟩
    simp [Session.next, Session.call, OpList.next, h.marks, h.mark_eq]
  | truncate i =>
    obtain ⟨ps, hi, hps⟩ := hc
    have hm : s.marks[i]? = some (markOf ps) := by simp [h.marks, hi]
    simpa [Session.next, Session.call, OpList.next, hm, hi] using h.truncate hps
  | sealAt n =>
    cases hs : s.buf.seal xxh3 n with
    | error e => simpa [Session.next, Session.call, hs, bind, Except.bind, OpList.next] using h
    | ok b => simpa [Session.next, Session.call, hs, bind, Except.bind, OpList.next]
        using h.sealAt xxh3 hs

/-! ## The buffer is its op list -/

theorem seal_isOk {n : UInt64} (h : Staged s o) :
    (s.call xxh3 (.sealAt n)).isOk = false ↔
      o.ops = [] ∨ maxRecord < s.buf.buf.length ∨ n = 0 ∨
        2 ^ 64 ≤ n.toNat + (o.ops.length - 1) := by
  have hnil : s.buf.ops = 0 ↔ o.ops = [] := by
    rw [h.count, List.length_eq_zero_iff]
  have hover : seqOverflows n s.buf.ops ↔ 2 ^ 64 ≤ n.toNat + (o.ops.length - 1) := by
    simp [seqOverflows, h.count]
  simp only [Session.call, RecordBuf.seal]
  rw [← hnil, ← hover]
  split_ifs with hops hmax hseq
  · simp [bind, Except.bind, Except.isOk, Except.toBool, hops]
  · simp [bind, Except.bind, Except.isOk, Except.toBool, hmax]
  · simp [bind, Except.bind, Except.isOk, Except.toBool, hseq]
  · push Not at hmax hseq
    simp [bind, Except.bind, Except.isOk, Except.toBool, hops, hmax, hseq]

theorem faithful (h : Staged s o) : Faithful xxh3 s o where
  count := h.count
  bytes := h.bytes
  valid := by
    intro p hp
    obtain ⟨hvalid, v, hv, hread⟩ := (h.fits p hp).valid
    obtain ⟨w, hw, hwv⟩ := hvalid.validateOp_eq
    rw [hv] at hwv
    cases hwv
    exact ⟨v, hw, hread⟩
  push_accepted := by
    intro p
    rw [← apply_isOk p s.buf]
    cases hp : p.apply s.buf <;>
      simp [Session.call, hp, bind, Except.bind, Except.isOk, Except.toBool]
  refused := by
    intro c e hc
    simp [Session.next, hc]
  seal_refused := fun n => h.seal_isOk xxh3
  seal_accepted := by
    intro n s' hs pre post
    have hviews : ∀ p ∈ o.ops, ∃ v, OpView.trusted p.bytes = some v ∧ v.read = some p.op :=
      fun p hp => (h.fits p hp).valid.2
    cases hseal : s.buf.seal xxh3 n with
    | error e => simp [Session.call, hseal, bind, Except.bind] at hs
    | ok b =>
      simp only [Session.call, hseal, bind, Except.bind] at hs
      cases hs
      obtain ⟨r, hr, hfirst, hcount, hreads, -⟩ :=
        h.holds.sealed_reads xxh3 hviews hseal pre post
      exact ⟨r, hr, hfirst, hcount, hreads⟩

end Staged

section runs
variable (xxh3 : Bytes → UInt64)

/-- The count, and the one a mark carries, are a `u32`. -/
structure Counted (s : Session) : Prop where
  ops : s.buf.ops < 2 ^ 32
  marks : ∀ m ∈ s.marks, m.ops < 2 ^ 32

theorem Counted.next {s : Session} (h : Counted s) (c : Call) : Counted (s.next xxh3 c) := by
  cases c with
  | push p =>
    cases hp : p.apply s.buf with
    | error e => simpa [Session.next, Session.call, hp, bind, Except.bind] using h
    | ok b =>
      have hlt : b.ops % 2 ^ 32 < 2 ^ 32 := Nat.mod_lt _ (by norm_num)
      simpa [Session.next, Session.call, hp, bind, Except.bind]
        using Counted.mk (s := ⟨b.narrow, s.marks⟩) hlt h.marks
  | mark =>
    refine ⟨h.ops, ?_⟩
    intro m hm
    rcases List.mem_append.mp hm with hm | hm
    · exact h.marks m hm
    · rw [List.mem_singleton.mp hm]
      exact h.ops
  | truncate i =>
    cases hi : s.marks[i]? with
    | none => simpa [Session.next, Session.call, hi] using h
    | some m =>
      have hm := h.marks m (List.mem_of_getElem? hi)
      have hops : (s.buf.truncate m).ops < 2 ^ 32 := by
        unfold RecordBuf.truncate
        split_ifs
        · norm_num
        · exact hm
        · exact h.ops
      simpa [Session.next, Session.call, hi]
        using Counted.mk (s := ⟨s.buf.truncate m, s.marks⟩) hops h.marks
  | sealAt n =>
    cases hs : s.buf.seal xxh3 n with
    | error e => simpa [Session.next, Session.call, hs, bind, Except.bind] using h
    | ok b =>
      have hops : b.ops = s.buf.ops := by
        unfold RecordBuf.seal at hs
        split_ifs at hs
        cases hs
        rfl
      simpa [Session.next, Session.call, hs, bind, Except.bind]
        using Counted.mk (s := ⟨b, s.marks⟩) (hops ▸ h.ops) h.marks

/-! ## Every sequence of calls -/

theorem stageRun_snoc (cs : List Call) (c : Call) :
    stageRun xxh3 (cs ++ [c]) = (stageRun xxh3 cs).bind fun st => stageStep xxh3 st c := by
  rw [stageRun, RunLib.run_append]
  congr 1
  funext st
  simp [RunLib.run]

/-- What a step of a run is. -/
theorem stageStep_some {st st' : Session × OpList} {c : Call}
    (h : stageStep xxh3 st c = some st') :
    st.2.Allows c ∧ st' = (st.1.next xxh3 c, st.2.next c) := by
  unfold stageStep at h
  split_ifs at h with hc
  cases h
  exact ⟨hc, rfl⟩

theorem Counted.run {calls : List Call} {st : Session × OpList}
    (h : stageRun xxh3 calls = some st) : Counted st.1 := by
  induction calls using List.reverseRecOn generalizing st with
  | nil =>
    cases h
    exact ⟨by norm_num [Session.new, RecordBuf.new], by simp [Session.new]⟩
  | append_singleton cs c ih =>
    rw [stageRun_snoc] at h
    obtain ⟨mid, hmid, hstep⟩ := Option.bind_eq_some_iff.mp h
    obtain ⟨-, rfl⟩ := stageStep_some xxh3 hstep
    exact (ih hmid).next xxh3 c

/-- While the count fits, a run keeps the invariant. -/
theorem Staged.run {calls : List Call} {st : Session × OpList}
    (hcount : ∀ cs t, cs <+: calls → stageRun xxh3 cs = some t → t.2.ops.length < 2 ^ 32)
    (h : stageRun xxh3 calls = some st) : Staged st.1 st.2 := by
  induction calls using List.reverseRecOn generalizing st with
  | nil =>
    cases h
    exact Staged.new
  | append_singleton cs c ih =>
    have hlast := hcount (cs ++ [c]) st (List.prefix_refl _) h
    rw [stageRun_snoc] at h
    obtain ⟨mid, hmid, hstep⟩ := Option.bind_eq_some_iff.mp h
    have hbefore : Staged mid.1 mid.2 :=
      ih (fun cs' t hcs' => hcount cs' t (hcs'.trans (List.prefix_append _ _))) hmid
    obtain ⟨hallow, rfl⟩ := stageStep_some xxh3 hstep
    exact hbefore.next xxh3 hallow hlast

/-- Over any sequence of pushes, marks, truncations to a mark of ops that are
    still there, and seals, each accepted or refused: the buffer is its op list
    after every call if and only if fewer than `2 ^ 32` ops are staged after
    every call. -/
theorem staging_faithful_iff (calls : List Call) :
    (∀ cs st, cs <+: calls → stageRun xxh3 cs = some st → Faithful xxh3 st.1 st.2) ↔
      ∀ cs st, cs <+: calls → stageRun xxh3 cs = some st → st.2.ops.length < 2 ^ 32 := by
  constructor
  · intro hfaith cs st hcs hrun
    have hcount := (hfaith cs st hcs hrun).count
    have hlt := (Counted.run xxh3 hrun).ops
    omega
  · intro hcount cs st hcs hrun
    have hstaged := Staged.run xxh3 (fun cs' t hcs' => hcount cs' t (hcs'.trans hcs)) hrun
    exact hstaged.faithful xxh3

/-- A run of pins: every one is staged, and the count wraps. -/
theorem stageRun_pins (n : Nat) : ∃ st, stageRun xxh3 (List.replicate n (.push (.pin 9 true)))
    = some st ∧ st.1.buf.ops = n % 2 ^ 32 ∧ st.2.ops = List.replicate n (.pin 9 true) := by
  induction n with
  | zero => exact ⟨_, rfl, rfl, rfl⟩
  | succ n ih =>
    obtain ⟨st, hrun, hops, hlist⟩ := ih
    have hfit : (Push.pin 9 true).Fits := trivial
    refine ⟨(st.1.next xxh3 (.push (.pin 9 true)), st.2.next (.push (.pin 9 true))), ?_, ?_, ?_⟩
    · rw [List.replicate_succ', stageRun_snoc, hrun]
      simp [stageStep, OpList.Allows]
    · -- the count before was taken modulo `2 ^ 32` already
      have hnext : (st.1.next xxh3 (.push (.pin 9 true))).buf.ops = (st.1.buf.ops + 1) % 2 ^ 32 := by
        simp [Session.next, Session.call, Push.apply, RecordBuf.pushPin, stage_eq,
          RecordBuf.narrow, bind, Except.bind]
      rw [hnext, hops]
      omega
    · simp [OpList.next, hfit, hlist, List.replicate_succ']

/-- `2 ^ 32` pins staged: the count is 0, and `seal` finds nothing to seal. -/
theorem staging_count_wraps :
    ∃ st, stageRun (fun _ => 7) (List.replicate (2 ^ 32) (.push (.pin 9 true))) = some st ∧
      st.2.ops.length = 2 ^ 32 ∧ st.1.buf.ops = 0 ∧
      (∀ n, st.1.call (fun _ => 7) (.sealAt n)
        = .error (.format "a record needs at least one op")) ∧
      ¬Faithful (fun _ => 7) st.1 st.2 := by
  obtain ⟨st, hrun, hops, hlist⟩ := stageRun_pins (fun _ => 7) (2 ^ 32)
  have hzero : st.1.buf.ops = 0 := by rw [hops, Nat.mod_self]
  have hlen : st.2.ops.length = 2 ^ 32 := by rw [hlist, List.length_replicate]
  refine ⟨st, hrun, hlen, hzero, ?_, ?_⟩
  · intro n
    simp [Session.call, RecordBuf.seal, hzero, bind, Except.bind]
  · intro hfaith
    have hcount := hfaith.count
    omega

end runs

end GraphR.Wal
