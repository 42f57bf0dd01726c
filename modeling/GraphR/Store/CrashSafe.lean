import GraphR.Store.OnDisk
import GraphR.Format.Wal.Frames
import GraphR.Format.Wal.Placed

/-! # Crash safety of the store on disk

    The bytes of the two files hold what a decoded handle does: `Held`. An open of such
    files, whatever a torn append left behind the last record, serves it (`Stored`), and
    every event keeps it. So a run over bytes, with a process dying at any byte of an
    append or between the renames of a compaction, shows what the decoded run does, in
    which a dead append has happened whole or not at all. -/

namespace GraphR.OnDisk

open Wal ByteLib BaseFile Multi Opening

/-! ## What the bytes hold -/

section relation
variable (xxh3 : Bytes → UInt64) (u : Unicode)

/-- A base and the records of a log hold a decoded handle. -/
structure Held (base : Bytes) (dir : BaseDir) (rs : List SealedRecord) (h : GraphR.Handle) :
    Prop where
  parsed : BaseDir.parse xxh3 base = .ok dir
  reads : (reader (dir.sec base) dir.header).Agrees h.served.reader
  searches : (searchReader (dir.sec base)).Agrees (h.served.searchReader xxh3 u)
  applied : dir.header.walAppliedSeq.toNat = h.disk.applied
  synced : h.Synced
  written : Written h.served (h.overlay.map Prod.snd)
  rising : Rising rs
  below : ∀ r ∈ rs, r.lastSeq < h.nextSeq
  ops : (rs.flatMap SealedRecord.views).map (fun e => (e.1, e.2.read))
    = h.overlay.map fun e => (e.1, some e.2)
  room : h.overlay.length ≤ arenaCapacity

/-- A log file: a header of a generation, and what is behind it. -/
def IsLog (generation : UInt64) (body : Bytes) (w : File) : Prop :=
  ∃ hdr, hdr.length = Wal.headerLen ∧ parseHeader xxh3 hdr = .ok generation ∧
    w.bytes = hdr ++ body

/-- A store whose files hold a decoded handle, and whose own handle has read all of
    them. -/
structure Stored (s : State) (h : GraphR.Handle) : Prop where
  held : ∃ rs w, Held xxh3 u s.files.base.bytes s.handle.dir rs h ∧ s.files.wal = some w ∧
    IsLog xxh3 s.handle.dir.header.generation (frames xxh3 rs) w ∧
    s.handle.ops = rs.flatMap SealedRecord.views
  base : s.handle.base = s.files.base.bytes
  seen : s.handle.seen = ⟨s.files.stamp, s.files.walBytes.length, true,
    s.handle.dir.header.generation.toNat⟩
  next : s.nextSeq = h.nextSeq
  bound : h.nextSeq < 2 ^ 64

end relation

section held
variable {xxh3 : Bytes → UInt64} {u : Unicode} {base : Bytes} {dir : BaseDir}
  {rs : List SealedRecord} {h : GraphR.Handle}

theorem IsLog.parse {generation : UInt64} {body : Bytes} {w : File}
    (hlog : IsLog xxh3 generation body w) : parseHeader xxh3 w.bytes = .ok generation := by
  obtain ⟨hdr, hlen, hparse, hbytes⟩ := hlog
  rw [hbytes, parseHeader_append xxh3 _ hlen, hparse]

theorem IsLog.length {generation : UInt64} {body : Bytes} {w : File}
    (hlog : IsLog xxh3 generation body w) : w.bytes.length = Wal.headerLen + body.length := by
  obtain ⟨hdr, hlen, -, hbytes⟩ := hlog
  rw [hbytes, List.length_append, hlen]

theorem isLog_encodeHeader (generation created : UInt64) (ident : Nat) :
    IsLog xxh3 generation [] ⟨ident, encodeHeader xxh3 generation created⟩ := by
  obtain ⟨hlen, hparse⟩ := parseHeader_encodeHeader xxh3 generation created
  exact ⟨_, hlen, hparse, (List.append_nil _).symm⟩

namespace Held
variable (hh : Held xxh3 u base dir rs h)
include hh

theorem numbers : (rs.flatMap SealedRecord.views).map Prod.fst = h.overlay.map Prod.fst := by
  have hfst := congrArg (List.map Prod.fst) hh.ops
  simpa only [List.map_map, Function.comp_def] using hfst

theorem length_views : (rs.flatMap SealedRecord.views).length = h.overlay.length := by
  rw [← List.length_map (f := Prod.fst), hh.numbers, List.length_map]

/-- The base has folded none of them. -/
theorem above : ∀ e ∈ rs.flatMap SealedRecord.views, dir.header.walAppliedSeq.toNat < e.1 := by
  intro e he
  have hmem := List.mem_map_of_mem (f := Prod.fst) he
  rw [hh.numbers, hh.synced.overlay] at hmem
  obtain ⟨e', he', heq⟩ := List.mem_map.mp hmem
  rw [← heq, hh.applied]
  exact hh.synced.above e' he'

/-- The number the next op gets. -/
theorem next : max dir.header.walAppliedSeq.toNat
    ((((rs.flatMap SealedRecord.views).getLast?.map Prod.fst)).getD 0) + 1 = h.nextSeq := by
  rw [hh.synced.next, ← hh.synced.overlay, ← List.getLast?_map, hh.numbers, List.getLast?_map,
    hh.applied, max_comm]
  cases h.overlay.getLast? <;> rfl

end Held

/-! ## Opening -/

section repair
variable {handle : Opening.Handle} {env : Env} {seen : Nat} {at_ : Nat × Nat}

theorem repair_torn (hcur : handle.seen.logCurrent = true)
    (hstamp : handle.seen.stamp = some ⟨seen, some at_⟩) (htorn : handle.seen.walPos < at_.2) :
    handle.repair xxh3 env = ({ handle with
      seen := { handle.seen with stamp := some ⟨seen, some (at_.1, handle.seen.walPos)⟩ } },
      [.cutLog handle.seen.walPos]) := by
  -- the log is longer than what was read of it
  rw [Handle.repair, if_neg (not_not.mpr hcur), hstamp]
  exact if_pos htorn

theorem repair_whole (hcur : handle.seen.logCurrent = true)
    (hstamp : handle.seen.stamp = some ⟨seen, some at_⟩) (hwhole : at_.2 ≤ handle.seen.walPos) :
    handle.repair xxh3 env = (handle, []) := by
  rw [Handle.repair, if_neg (not_not.mpr hcur), hstamp]
  exact if_neg (not_lt.mpr hwhole)

theorem repair_replaced (hcur : handle.seen.logCurrent = false) :
    handle.repair xxh3 env = ({ handle with
      seen := ⟨handle.seen.stamp.map fun s => { s with wal := some (env.fresh,
          (encodeHeader xxh3 (UInt64.ofNat handle.seen.baseGen) env.nowMs).length) },
        Wal.headerLen, true, handle.seen.baseGen⟩ },
      [.replaceLog
        ⟨env.fresh, encodeHeader xxh3 (UInt64.ofNat handle.seen.baseGen) env.nowMs⟩]) := by
  rw [Handle.repair, if_pos (by simp [hcur])]

end repair

/-- A handle over files that hold a decoded handle, once it has seen all of them. -/
theorem Held.serves {files : Files} {w : File} (hh : Held xxh3 u files.base.bytes dir rs h)
    (hw : files.wal = some w) (hlog : IsLog xxh3 dir.header.generation (frames xxh3 rs) w)
    {handle : Opening.Handle} (hhandle : handle = ⟨dir, files.base.bytes,
      rs.flatMap SealedRecord.views,
      ⟨files.stamp, files.walBytes.length, true, dir.header.generation.toNat⟩⟩) :
    Option.Rel (Stored xxh3 u)
      (if 2 ^ 64 ≤ handle.servedSeq + 1 then none else some ⟨files, handle, handle.servedSeq + 1⟩)
      (if 2 ^ 64 ≤ h.nextSeq then none else some h) := by
  subst hhandle
  have hnext : Handle.servedSeq ⟨dir, files.base.bytes, rs.flatMap SealedRecord.views,
      ⟨files.stamp, files.walBytes.length, true, dir.header.generation.toNat⟩⟩ + 1 = h.nextSeq :=
    hh.next
  rw [hnext]
  by_cases hfull : 2 ^ 64 ≤ h.nextSeq
  · rw [if_pos hfull, if_pos hfull]
    exact .none
  · rw [if_neg hfull, if_neg hfull]
    exact .some ⟨⟨rs, w, hh, hw, hlog, rfl⟩, rfl, rfl, rfl, not_le.mp hfull⟩

/-- Opening files that hold a decoded handle serves it, whatever part of another record
    is behind the last one. -/
theorem Held.opens {files : Files} {w : File} {rest : List SealedRecord} {kept : Nat} (env : Env)
    (hh : Held xxh3 u files.base.bytes dir rs h) (hw : files.wal = some w)
    (hlog : IsLog xxh3 dir.header.generation (frames xxh3 rs ++ (frames xxh3 rest).take kept) w)
    (hrise : Rising (rs ++ rest)) (hrest : ∀ r ∈ rest.head?, kept < r.len)
    (hsize : Wal.headerLen + (frames xxh3 rs).length ≤ offMask) :
    Option.Rel (Stored xxh3 u) (opened xxh3 env files)
      (if 2 ^ 64 ≤ h.nextSeq then none else some h) := by
  obtain ⟨hdr, hlen, hparse, hbytes⟩ := id hlog
  have hwal : files.walBytes = w.bytes := by rw [Files.walBytes, hw]; rfl
  -- the scan stops behind the last whole record
  have hrs := @validated_frames xxh3 rs rest hrise hdr kept hrest
  rw [hlen, ← hbytes, ← hwal] at hrs
  -- what a replay publishes is what the records hold
  have hops : opsAbove dir.header.walAppliedSeq.toNat
      ((placed Wal.headerLen rs).map fun p => p.2.toRecord xxh3 p.1)
      = rs.flatMap SealedRecord.views := by
    rw [opsAbove, flatMap_ops_placed, List.filter_eq_self]
    intro e he
    exact decide_eq_true (hh.above e he)
  -- what the overlay holds has room in an arena
  have hroom : ¬Full (rs.flatMap SealedRecord.views) (Wal.headerLen + (frames xxh3 rs).length) := by
    have hcap := hh.room
    rw [← hh.length_views] at hcap
    unfold Full
    omega
  rw [← hops] at hroom
  have hbuild := buildGeneration_of_loads hh.parsed
    (.current (hwal ▸ hlog.parse) hrs hroom)
  rw [hops] at hbuild
  have hopen := @openWith_of_load xxh3 files _ env hbuild (by simp)
  have hwlen := hlog.length
  rw [List.length_append, ← Nat.add_assoc] at hwlen
  have hstamp : files.stamp = some ⟨files.base.ident, some (w.ident, w.bytes.length)⟩ := by
    rw [Files.stamp, hw]
    rfl
  by_cases htorn : Wal.headerLen + (frames xxh3 rs).length < files.walBytes.length
  · -- torn: cut at the end of the last record
    have hcut : (files.after [.cutLog (Wal.headerLen + (frames xxh3 rs).length)]).wal
        = some ⟨w.ident, hdr ++ frames xxh3 rs⟩ := by
      simp only [Files.after, List.foldl_cons, List.foldl_nil, Files.apply, hw, Option.map_some,
        hbytes]
      rw [← List.append_assoc, List.take_left' (by rw [List.length_append, hlen])]
    have hwal' : (files.after [.cutLog (Wal.headerLen + (frames xxh3 rs).length)]).walBytes.length
        = Wal.headerLen + (frames xxh3 rs).length := by
      rw [Files.walBytes, hcut, Option.elim_some, List.length_append, hlen]
    rw [if_pos (by simp [htorn]), repair_torn rfl hstamp (hwal ▸ htorn)] at hopen
    unfold opened
    rw [hopen]
    refine @Held.serves xxh3 u dir rs h
      (files.after [.cutLog (Wal.headerLen + (frames xxh3 rs).length)]) _ hh hcut
      ⟨hdr, hlen, hparse, rfl⟩ _ ?_
    rw [hwal', Files.stamp, hcut, Option.map_some, List.length_append, hlen]
    rfl
  · -- whole: nothing is behind the last record
    have hempty : (frames xxh3 rest).take kept = [] := by
      rw [← List.length_eq_zero_iff]
      rw [hwal, hwlen] at htorn
      omega
    rw [hempty, List.append_nil] at hlog
    rw [if_neg (by simp [htorn])] at hopen
    unfold opened
    rw [hopen]
    refine Held.serves hh hw hlog ?_
    rw [hwal, hlog.length]
    rfl

/-- Opening a base beside the log of an older one, which it has folded, serves the base. -/
theorem Held.opens_stale {files : Files} {generation : UInt64} (env : Env)
    (hh : Held xxh3 u files.base.bytes dir [] h)
    (hparse : parseHeader xxh3 files.walBytes = .ok generation)
    (hold : generation < dir.header.generation) :
    Option.Rel (Stored xxh3 u) (opened xxh3 env files)
      (if 2 ^ 64 ≤ h.nextSeq then none else some h) := by
  have hbuild := buildGeneration_of_loads hh.parsed (.stale hparse hold)
  have hopen := @openWith_of_load xxh3 files _ env hbuild (by simp)
  rw [if_pos (by simp), repair_replaced rfl] at hopen
  unfold opened
  rw [hopen]
  -- the fresh log is under the generation of the base
  have hgen : UInt64.ofNat (assemble files ⟨dir, [], .stale, Wal.headerLen⟩).seen.baseGen
      = dir.header.generation := UInt64.ofNat_toNat
  rw [hgen]
  have hlog := @isLog_encodeHeader xxh3 dir.header.generation env.nowMs env.fresh
  refine @Held.serves xxh3 u dir [] h (files.after [.replaceLog ⟨env.fresh,
    encodeHeader xxh3 dir.header.generation env.nowMs⟩]) _ hh rfl hlog _ ?_
  have hlen : (files.after [.replaceLog ⟨env.fresh,
      encodeHeader xxh3 dir.header.generation env.nowMs⟩]).walBytes.length = Wal.headerLen :=
    hlog.length
  rw [hlen]
  rfl

end held

/-! ## Reading -/

theorem mapM_of_map {α β : Type} {xs : List α} {f : α → Option β} {ys : List β}
    (h : xs.map f = ys.map some) : xs.mapM f = some ys := by
  induction xs generalizing ys with
  | nil =>
    rw [List.map_eq_nil_iff.mp h.symm]
    rfl
  | cons x xs ih =>
    obtain ⟨y, ys', rfl, hy, hys⟩ := List.map_eq_cons_iff.mp h.symm
    rw [List.mapM_cons, ← hy, ih hys.symm]
    rfl

section stored
variable {xxh3 : Bytes → UInt64} {u : Unicode} {s : State} {h : GraphR.Handle}

/-- What the handle shows over its bytes. -/
def State.view (s : State) (ops : List Op) (ttl : TtlConfig) : Snapshot :=
  ⟨reader (s.handle.dir.sec s.handle.base) s.handle.dir.header, ops, ttl⟩

namespace Stored
variable (hs : Stored xxh3 u s h) (ttl : TtlConfig)
include hs

theorem reads : (reader (s.handle.dir.sec s.handle.base) s.handle.dir.header).Agrees
    h.served.reader := by
  obtain ⟨rs, w, hh, -⟩ := hs.held
  rw [hs.base]
  exact hh.reads

theorem snapshot : s.snapshot ttl = some (s.view (h.overlay.map Prod.snd) ttl) := by
  obtain ⟨rs, w, hh, -, -, hops⟩ := hs.held
  have hread : s.handle.ops.mapM (fun e => e.2.read) = some (h.overlay.map Prod.snd) := by
    apply mapM_of_map
    have hsnd := congrArg (List.map Prod.snd) hh.ops
    rw [← hops] at hsnd
    simpa only [List.map_map, Function.comp_def] using hsnd
  unfold State.snapshot
  rw [hread]
  rfl

theorem same : (s.view (h.overlay.map Prod.snd) ttl).Same xxh3 (h.snapshot ttl) :=
  hs.reads.same _ ttl xxh3

/-- The sequence numbers of the handle and of the writer are in step. -/
theorem servedSeq : s.handle.servedSeq + 1 = h.nextSeq := by
  obtain ⟨rs, w, hh, -, -, hops⟩ := hs.held
  rw [Opening.Handle.servedSeq, hops]
  exact hh.next

/-- A catch-up finds the files as they are known and repairs nothing. -/
theorem sync (env : Env) : s.sync xxh3 env = .ok s := by
  obtain ⟨rs, w, hh, hw, -, -⟩ := hs.held
  have hstamp : s.files.stamp = some ⟨s.files.base.ident, some (w.ident, w.bytes.length)⟩ := by
    rw [Files.stamp, hw]
    rfl
  -- base and log are stamped as they are
  have hcaught : s.handle.catchUp xxh3 s.files = .ok s.handle := by
    rw [Opening.Handle.catchUp, hs.seen]
    simp [Seen.caught, hstamp]
  have hrepair : s.handle.repair xxh3 env = (s.handle, []) := by
    apply @repair_whole xxh3 s.handle env s.files.base.ident (w.ident, w.bytes.length)
    · rw [hs.seen]
    · rw [hs.seen, hstamp]
    · rw [hs.seen, Files.walBytes, hw]
      exact le_rfl
  have hnext : max s.nextSeq (s.handle.servedSeq + 1) = s.nextSeq := by
    rw [hs.servedSeq, hs.next, max_self]
  unfold State.sync
  rw [hcaught]
  simp only [hrepair, hnext]
  rfl

end Stored

end stored

/-! ## Appending -/

/-- What a call stages depends on the nodes it reads, not on where they are kept. -/
theorem stage_same {v v' : Snapshot} (hnode : ∀ k, v.node k = v'.node k) (httl : v.ttl = v'.ttl)
    (e : Edit) (b : RecordBuf) : e.stage v b = e.stage v' b := by
  cases e with
  | write w => rfl
  | touch key t =>
    unfold Edit.stage Writer.touch
    simp only [hnode, httl]
  | pin key pinned =>
    unfold Edit.stage Writer.setPinned
    simp only [hnode]

section append
variable {xxh3 : Bytes → UInt64} {u : Unicode} {s : State} {h : GraphR.Handle} {ttl : TtlConfig}
  {edits : List Edit} {staged : RecordBuf}

theorem Stored.stages (hs : Stored xxh3 u s h) : s.staged ttl edits = stagedBy ttl h edits := by
  have hstage : (fun (b : RecordBuf) (e : Edit) =>
      e.stage (s.view (h.overlay.map Prod.snd) ttl) b) = fun b e => e.stage (h.snapshot ttl) b := by
    funext b e
    exact stage_same (hs.same ttl).node rfl e b
  unfold State.staged
  rw [hs.snapshot, Option.bind_eq_bind, Option.bind_some, hstage, stagedBy]

/-- What an append comes to: refused on both sides, or a record that both take. -/
inductive Appends (xxh3 : Bytes → UInt64) (u : Unicode) (s : State) (h : GraphR.Handle)
    (staged : RecordBuf) : Prop where
  | refused (hrefuses : refuses xxh3 h staged = true) (hrecord : s.record xxh3 staged = none)
  | taken {r : SealedRecord} {h' : GraphR.Handle} (hrefuses : refuses xxh3 h staged = false)
      (hrecord : s.record xxh3 staged
        = some (r.bytes xxh3, { s.handle with ops := s.handle.ops ++ r.views }))
      (hcommit : h.commit xxh3 staged = some h') (hnext : h'.nextSeq = h.nextSeq + staged.ops)
      (hwhole : ∀ kept, whole xxh3 h staged kept = decide (r.len ≤ kept))
      (hheld : ∀ base dir rs, Held xxh3 u base dir rs h → Held xxh3 u base dir (rs ++ [r]) h')

/-- One more record behind the others. -/
theorem Held.append {base : Bytes} {dir : BaseDir} {rs : List SealedRecord} {r : SealedRecord}
    {ops : List Op} {h' : GraphR.Handle} (hh : Held xxh3 u base dir rs h)
    (hcommit : h.commit xxh3 staged = some h')
    (hcommitted : h' = { h with
      disk := { h.disk with log := h.disk.log ++ Handle.numbered h.nextSeq ops }
      overlay := h.overlay ++ Handle.numbered h.nextSeq ops
      nextSeq := h.nextSeq + ops.length })
    (hfirst : r.firstSeq.toNat = h.nextSeq) (hlen : r.ops.length = ops.length)
    (hviews : r.views.map (fun e => (e.1, e.2.read))
      = (Handle.numbered h.nextSeq ops).map fun e => (e.1, some e.2))
    (hstaged : ∀ op ∈ ops, StagedOp op) (hroom : h.overlay.length + ops.length ≤ arenaCapacity) :
    Held xxh3 u base dir (rs ++ [r]) h' := by
  have hsynced := hh.synced.commit hcommit
  -- numbering ops and dropping the numbers gives them back
  have hsnd : (Handle.numbered h.nextSeq ops).map Prod.snd = ops := by
    unfold Handle.numbered
    rw [List.map_map]
    exact List.zipIdx_map_fst _ _
  subst hcommitted
  refine ⟨hh.parsed, hh.reads, hh.searches, hh.applied, hsynced, ?_, ?_, ?_, ?_, ?_⟩
  · refine ⟨hh.written.closed, hh.written.ascending, ?_⟩
    intro op hop
    rw [List.map_append, hsnd, List.mem_append] at hop
    rcases hop with hop | hop
    · exact hh.written.staged op hop
    · exact hstaged op hop
  · refine List.isChain_append.mpr ⟨hh.rising, List.isChain_singleton _, ?_⟩
    intro a ha b hb
    cases hb
    rw [hfirst]
    exact hh.below a (List.mem_of_mem_getLast? ha)
  · intro a ha
    have hpos := r.ops_pos
    rcases List.mem_append.mp ha with ha | ha
    · have := hh.below a ha
      exact Nat.lt_of_lt_of_le this (Nat.le_add_right _ _)
    · rw [List.mem_singleton.mp ha, SealedRecord.lastSeq]
      simp only
      omega
  · rw [List.flatMap_append, List.map_append, hh.ops, List.flatMap_singleton, hviews,
      ← List.map_append]
  · simpa [Handle.numbered] using hroom

theorem Stored.appends (hs : Stored xxh3 u s h)
    (hstaged : stagedBy ttl h edits = some staged) : Appends xxh3 u s h staged := by
  obtain ⟨rs, w, hh, hw, hlog, hviews⟩ := hs.held
  obtain ⟨qs, opss, hqs, hgives, hops⟩ := @edits_give _ _ [] _ _ rfl hstaged
  rw [List.nil_append] at hqs
  have hread := record_reads hqs
  have hholds := Holds.new.pushAll hqs
  rw [List.nil_append] at hholds
  have hcount : staged.ops = qs.length := by rw [hholds.ops, List.length_map]
  have hlen : s.handle.ops.length = h.overlay.length := by rw [hviews, hh.length_views]
  have hnum : (UInt64.ofNat h.nextSeq).toNat = h.nextSeq := by
    rw [UInt64.toNat_ofNat', Nat.mod_eq_of_lt hs.bound]
  -- the source refuses in this order: nothing staged, no seal, no room
  by_cases hempty : staged.isEmpty = true
  · exact .refused (by simp [refuses, hempty]) (by simp [State.record, hempty])
  · cases hseal : staged.seal xxh3 (UInt64.ofNat h.nextSeq) with
    | error e =>
      refine .refused (by simp [refuses, hseal, Except.isOk, Except.toBool]) ?_
      simp [State.record, hs.next, hseal]
    | ok sealed =>
      obtain ⟨r, hfirst, hrops, hbytes⟩ := hholds.sealed_bytes xxh3 hseal
      have hsealed : sealed.ops = staged.ops := by
        unfold RecordBuf.seal at hseal
        split_ifs at hseal
        cases hseal
        rfl
      by_cases hfull : arenaCapacity < h.overlay.length + staged.ops
      · refine .refused (by simp [refuses, hfull]) ?_
        simp [State.record, hs.next, hseal, hlen, hsealed, hfull]
      · -- the record as a scan reads it
        have hsize : sealed.len ≤ offMask := by
          have hmax := r.len_le
          rw [← r.length_bytes xxh3, ← hbytes] at hmax
          exact hmax.trans (by decide)
        -- all its ops are above what is published
        have hviewsr : opsAbove (h.nextSeq - 1) (records sealed.buf 0 sealed.buf.length)
            = r.views := by
          rw [hbytes, r.validated_alone.records_eq (Nat.zero_le _), opsAbove]
          have hplaced := @flatMap_ops_placed xxh3 0 [r]
          rw [List.flatMap_singleton] at hplaced
          have hflat : ([r.toRecord xxh3 0].flatMap fun r => r.ops.map fun p => (p.1, p.2.2))
              = r.views := hplaced
          rw [hflat, List.filter_eq_self]
          intro e he
          have hge := (SealedRecord.mem_views he).1
          have hpos := r.firstSeq_pos
          rw [hfirst, hnum] at hge hpos
          rw [decide_eq_true_eq]
          omega
        have hcommit : h.commit xxh3 staged = some { h with
            disk := { h.disk with
              log := h.disk.log ++ Handle.numbered h.nextSeq (qs.map Push.op) }
            overlay := h.overlay ++ Handle.numbered h.nextSeq (qs.map Push.op)
            nextSeq := h.nextSeq + (qs.map Push.op).length } := by
          unfold GraphR.Handle.commit
          rw [if_neg hempty, if_neg (not_le.mpr hs.bound), hseal]
          simp only [hread, Option.bind_eq_bind, Option.bind_some]
        have hopsLen : (qs.map Push.op).length = staged.ops := by rw [List.length_map, hcount]
        refine .taken (r := r) ?_ ?_ hcommit (by rw [hopsLen]) ?_ ?_
        · simp [refuses, hempty, hseal, hfull, Except.isOk, Except.toBool]
        · unfold State.record
          rw [if_neg (by simp [hempty, hw]), hs.next, hseal]
          simp only [hlen, hsealed, hviewsr]
          rw [if_neg (by omega), hbytes]
        · intro kept
          simp [whole, hseal, hbytes, Except.toOption, r.length_bytes]
        · intro base dir rs hh
          refine hh.append hcommit rfl (by rw [hfirst, hnum]) (by rw [hrops]; simp) ?_ ?_ (by omega)
          · have hnumbered := @seqOps_read qs h.nextSeq (pushAll_views hqs)
            unfold SealedRecord.views SealedRecord.seqOps
            rw [hrops, hfirst, hnum, hnumbered, Handle.numbered, List.zipIdx_map]
            simp [Function.comp_def]
          · rw [hops]
            exact stagedOp_of_gives hgives

/-! ## Events -/

/-- A log with more bytes behind its own. -/
theorem isLog_append {files : Files} {generation : UInt64} {body : Bytes} {w : File}
    (bytes : Bytes) (hw : files.wal = some w) (hlog : IsLog xxh3 generation body w) :
    (appendLog files bytes).wal = some ⟨w.ident, w.bytes ++ bytes⟩ ∧
      IsLog xxh3 generation (body ++ bytes) ⟨w.ident, w.bytes ++ bytes⟩ := by
  obtain ⟨hdr, hlen, hparse, hbytes⟩ := hlog
  refine ⟨by rw [appendLog, hw]; rfl, hdr, hlen, hparse, ?_⟩
  rw [hbytes, List.append_assoc]

theorem frames_snoc (rs : List SealedRecord) (r : SealedRecord) :
    frames xxh3 (rs ++ [r]) = frames xxh3 rs ++ r.bytes xxh3 := by
  rw [frames, List.flatMap_append, List.flatMap_singleton]
  rfl

theorem Stored.append (hs : Stored xxh3 u s h) (ha : Appends xxh3 u s h staged) :
    Option.Rel (Stored xxh3 u) (s.append xxh3 staged) (settle xxh3 h staged) := by
  unfold State.append settle
  cases ha with
  | refused hrefuses hrecord =>
    rw [hrecord, if_pos hrefuses]
    exact .some hs
  | @taken r h' hrefuses hrecord hcommit hnext hwhole hheld =>
    rw [hrecord, hrefuses, hcommit]
    simp only [Bool.false_eq_true, if_false, hs.next]
    by_cases hfull : 2 ^ 64 ≤ h.nextSeq + staged.ops
    · rw [if_pos hfull, if_pos hfull]
      exact .none
    · rw [if_neg hfull, if_neg hfull]
      obtain ⟨rs, w, hh, hw, hlog, hops⟩ := hs.held
      obtain ⟨hw', hlog'⟩ := isLog_append (r.bytes xxh3) hw hlog
      rw [← frames_snoc] at hlog'
      refine .some ⟨⟨rs ++ [r], _, hheld _ _ _ hh, hw', hlog', ?_⟩, hs.base, ?_, hnext.symm, ?_⟩
      · rw [List.flatMap_append, List.flatMap_singleton, ← hops]
      · rw [hs.seen]
        simp only [Seen.appended, Files.stamp, Files.walBytes, hw, hw', Option.map_some,
          Option.elim_some, List.length_append]
        rfl
      · rw [hnext]
        exact not_le.mp hfull

/-- The files as they are, opened again. -/
theorem Stored.reopens (hs : Stored xxh3 u s h) (env : Env)
    (hsize : s.files.walBytes.length ≤ offMask) :
    Option.Rel (Stored xxh3 u) (opened xxh3 env s.files) (some h) := by
  obtain ⟨rs, w, hh, hw, hlog, -⟩ := hs.held
  have hlen := hlog.length
  rw [Files.walBytes, hw, Option.elim_some, hlen] at hsize
  have hopens := @Held.opens xxh3 u _ rs h s.files w [] 0 env hh hw
    (by rwa [List.take_zero, List.append_nil]) (by rw [List.append_nil]; exact hh.rising)
    (by simp) hsize
  rwa [if_neg (not_le.mpr hs.bound)] at hopens

/-- The files a dead append left, opened. -/
theorem Stored.torn (hs : Stored xxh3 u s h) (ha : Appends xxh3 u s h staged) (env : Env)
    (kept : Nat) (hsize : s.files.walBytes.length + maxRecord ≤ offMask) :
    Option.Rel (Stored xxh3 u) (opened xxh3 env (s.torn xxh3 staged kept))
      (if whole xxh3 h staged kept then settle xxh3 h staged else some h) := by
  unfold State.torn settle
  cases ha with
  | refused hrefuses hrecord =>
    rw [hrecord, if_pos hrefuses, ite_self]
    exact hs.reopens env (by omega)
  | @taken r h' hrefuses hrecord hcommit hnext hwhole hheld =>
    obtain ⟨rs, w, hh, hw, hlog, -⟩ := hs.held
    have hmax := r.len_le
    have hlen := hlog.length
    rw [Files.walBytes, hw, Option.elim_some, hlen] at hsize
    rw [hrecord, hrefuses, hcommit, hwhole]
    simp only [Bool.false_eq_true, if_false, decide_eq_true_eq]
    obtain ⟨hw', hlog'⟩ := isLog_append ((r.bytes xxh3).take kept) hw hlog
    have hrise := (hheld _ _ _ hh).rising
    by_cases hkept : r.len ≤ kept
    · -- all of it: the transaction has happened
      rw [if_pos hkept, ← hnext]
      rw [List.take_of_length_le (by rw [r.length_bytes]; exact hkept)] at hw' hlog' ⊢
      rw [← frames_snoc] at hlog'
      refine @Held.opens xxh3 u _ (rs ++ [r]) h' (appendLog s.files (r.bytes xxh3)) _ [] 0 env
        (hheld _ _ _ hh) hw' (by rwa [List.take_zero, List.append_nil])
        (by rwa [List.append_nil]) (by simp) ?_
      rw [frames_snoc, List.length_append, r.length_bytes]
      omega
    · -- part of it: nothing has
      rw [if_neg hkept]
      have hopens := @Held.opens xxh3 u _ rs h (appendLog s.files ((r.bytes xxh3).take kept)) _ [r]
        kept env hh hw' (by rwa [frames, frames, List.flatMap_singleton]) hrise
        (by simpa using not_le.mp hkept) (by omega)
      rwa [if_neg (not_le.mpr hs.bound)] at hopens

end append

/-! ## Compactions -/

/-- A compaction collects the same nodes over readers that agree. -/
theorem compactNodes_same {r r' : BaseReader} (h : r.Agrees r') (ops : List Op) (ttl : TtlConfig)
    (xxh3 : Bytes → UInt64) : (Snapshot.mk r ops ttl).compactNodes xxh3
      = (Snapshot.mk r' ops ttl).compactNodes xxh3 := by
  -- the same keys, and the same node for each
  have hkeys : (Snapshot.mk r ops ttl).allKeys = (Snapshot.mk r' ops ttl).allKeys := by
    unfold Snapshot.allKeys
    simp only [h.nodeCount, h.nodeRec]
    rfl
  have hmodel : ∀ k, (Snapshot.mk r ops ttl).collectModel xxh3 k
      = (Snapshot.mk r' ops ttl).collectModel xxh3 k := by
    intro k
    unfold Snapshot.collectModel
    simp only [h.node_same, h.neighbors_same, h.segments_same, h.attrs_same]
  unfold Snapshot.compactNodes Snapshot.collectModels
  simp only [hkeys, hmodel]

section compact
variable {xxh3 : Bytes → UInt64} {u : Unicode} {rank : SortedMap UrlKey NodeModel → List UInt16}
  (hrank : ∀ nodes, (rank nodes).length = nodes.entries.length) {ttl : TtlConfig} {s : State}
  {h : GraphR.Handle} (hs : Stored xxh3 u s h)
include hrank hs

/-- What a compaction renders holds what the decoded one comes to. -/
theorem Stored.renders {env : Env}
    (hroom : s.roomFor xxh3 u rank ttl (.compact env) = true) :
    s.newGeneration = s.handle.dir.header.generation.toNat + 1 ∧ s.newGeneration < 2 ^ 64 ∧
      ∃ base dir h', s.render xxh3 u rank ttl = some base ∧ h.compact xxh3 rank ttl = some h' ∧
        Held xxh3 u base dir [] h' ∧ dir.header.generation = UInt64.ofNat s.newGeneration ∧
        h'.nextSeq = h.nextSeq := by
  obtain ⟨rs, w, hh, -⟩ := hs.held
  have hgen : s.newGeneration = s.handle.dir.header.generation.toNat + 1 := by
    rw [State.newGeneration, hs.seen]
    simp only [max_self]
  simp only [State.roomFor, hs.snapshot, Option.all_some, Bool.and_eq_true, decide_eq_true_eq]
    at hroom
  obtain ⟨hbound, hroom⟩ := hroom
  -- over the bytes a compaction collects what the decoded one does
  have hnodes : (s.view (h.overlay.map Prod.snd) ttl).compactNodes xxh3
      = (h.snapshot ttl).compactNodes xxh3 := compactNodes_same hs.reads _ ttl xxh3
  obtain ⟨models, hmodels, -⟩ := @Base.collectModels_snapshot xxh3 h.served
    (h.overlay.map Prod.snd) ttl hh.written.closed
  have hcompact : (h.snapshot ttl).compactNodes xxh3 = some (manageStubs models) := by
    rw [Snapshot.compactNodes, GraphR.Handle.snapshot, hmodels]
    rfl
  rw [hnodes, hcompact, Option.all_some, decide_eq_true_eq] at hroom
  generalize manageStubs models = nodes at hcompact hroom
  have hwritten : Written ⟨nodes, rank nodes⟩ [] := hh.written.compact hcompact (rank nodes)
  have hfits : Base.Fits xxh3 u ⟨nodes, rank nodes⟩ :=
    ⟨hroom, hwritten.closed, hwritten.ascending, hrank nodes⟩
  obtain ⟨base, dir, hrender, -, hparse, ⟨hdgen, happlied⟩, hreads, hsearches⟩ :=
    Base.parse_render hfits (UInt64.ofNat s.newGeneration) (UInt64.ofNat (s.nextSeq - 1))
  have hnext := hh.synced.next
  have hdecoded : h.compact xxh3 rank ttl = some ⟨⟨⟨nodes, rank nodes⟩, h.nextSeq - 1, []⟩,
      ⟨nodes, rank nodes⟩, [], h.nextSeq - 1 + 1⟩ := by
    rw [GraphR.Handle.compact, hcompact]
    rfl
  refine ⟨hgen, hbound, base, dir, _, ?_, hdecoded, ?_, hdgen, by simp only; omega⟩
  · unfold State.render
    rw [hs.snapshot, Option.bind_eq_bind, Option.bind_some, hnodes, hcompact]
    simp only [Option.bind_eq_bind, Option.bind_some]
    rw [if_neg (not_le.mpr hbound), hrender]
  · refine ⟨hparse, hreads, hsearches, ?_, GraphR.Handle.Synced.compact hdecoded, hwritten,
      List.isChain_nil, by simp, rfl, Nat.zero_le _⟩
    rw [happlied, UInt64.toNat_ofNat', hs.next]
    exact Nat.mod_eq_of_lt (by have := hs.bound; omega)

theorem Stored.compacts {env : Env}
    (hroom : s.roomFor xxh3 u rank ttl (.compact env) = true) :
    Option.Rel (Stored xxh3 u) (s.compactLocked xxh3 u rank ttl env)
      (h.compact xxh3 rank ttl) := by
  obtain ⟨-, hbound, base, dir, h', hrender, hcompact, hh, hgen, hnext⟩ := hs.renders hrank hroom
  unfold State.compactLocked
  rw [hrender, hcompact, Option.bind_eq_bind, Option.bind_some, hh.parsed]
  have hlog := @isLog_encodeHeader xxh3 (UInt64.ofNat s.newGeneration) env.nowMs (env.fresh + 1)
  have hlen := hlog.length
  have hnum : (UInt64.ofNat s.newGeneration).toNat = s.newGeneration := by
    rw [UInt64.toNat_ofNat', Nat.mod_eq_of_lt hbound]
  have hpos := hh.synced.next
  have hbound' := hs.bound
  refine .some ⟨⟨[], _, hh, rfl, ?_, rfl⟩, rfl, ?_, ?_, by omega⟩
  · simp only [hgen]
    exact hlog
  · simp only [Files.walBytes, Option.elim_some, hlen, hgen, hnum]
    rfl
  · simp only [hs.next]
    omega

/-- The new base beside the old log, opened: the compaction has happened. -/
theorem Stored.halfCompacted {env env' : Env}
    (hroom : s.roomFor xxh3 u rank ttl (.compact env) = true) :
    Option.Rel (Stored xxh3 u)
      ((s.render xxh3 u rank ttl).bind fun base => opened xxh3 env' ⟨⟨env.fresh, base⟩, s.files.wal⟩)
      (h.compact xxh3 rank ttl) := by
  obtain ⟨hnew, hbound, base, dir, h', hrender, hcompact, hh, hgen, hnext⟩ :=
    hs.renders hrank hroom
  obtain ⟨rs, w, -, hw, hlog, -⟩ := hs.held
  rw [hrender, hcompact, Option.bind_some]
  have hopens := @Held.opens_stale xxh3 u dir h' ⟨⟨env.fresh, base⟩, s.files.wal⟩
    s.handle.dir.header.generation env' hh
  rw [if_neg (by have := hs.bound; omega)] at hopens
  apply hopens
  · rw [Files.walBytes, hw]
    exact hlog.parse
  · rw [hgen, UInt64.lt_iff_toNat_lt, UInt64.toNat_ofNat', Nat.mod_eq_of_lt hbound, hnew]
    exact Nat.lt_succ_self _

/-! ## Runs -/

/-- Every event finds the bytes holding the decoded store, and leaves them so. -/
theorem Stored.exec (e : Event) (hroom : s.roomFor xxh3 u rank ttl e = true) :
    Option.Rel (Stored xxh3 u) (exec xxh3 u rank ttl s e) (execDecoded xxh3 rank ttl h e) := by
  cases e with
  | transact env edits =>
    unfold OnDisk.exec execDecoded
    simp only [hs.sync, hs.stages]
    cases hstaged : stagedBy ttl h edits with
    | none => exact .none
    | some staged => exact hs.append (hs.appends hstaged)
  | compact env =>
    unfold OnDisk.exec execDecoded
    simp only [hs.sync]
    exact hs.compacts hrank hroom
  | reopen env => exact hs.reopens env (of_decide_eq_true hroom)
  | dieInAppend env env' edits kept =>
    unfold OnDisk.exec execDecoded
    simp only [hs.sync, hs.stages]
    cases hstaged : stagedBy ttl h edits with
    | none => exact .none
    | some staged =>
      have hsize : s.files.walBytes.length + maxRecord ≤ offMask := by
        simpa only [State.roomFor, decide_eq_true_eq] using hroom
      exact hs.torn (hs.appends hstaged) env' kept hsize
  | dieInCompact env env' =>
    unfold OnDisk.exec execDecoded
    simp only [hs.sync]
    exact hs.halfCompacted hrank hroom

end compact

/-- The empty base may be rendered, and is what a new store gets. -/
theorem fits_empty (xxh3 : Bytes → UInt64) (u : Unicode) : Base.Fits xxh3 u ⟨SortedMap.empty, []⟩ where
  nodes := by decide
  labels := by intro e he; cases he
  segs := by intro e he; cases he
  tokens := by intro e he; cases he
  segTotal := by decide
  edgeTotal := by decide
  attrTotal := by decide
  tokenTotal := (by decide : 0 < 2 ^ 32)
  triTotal := (by decide : 0 < 2 ^ 32)
  heaps := rfl
  closed := by intro k m hm; cases hm
  sorted := by intro k m hm; cases hm
  ranks := rfl

theorem render_empty (xxh3 : Bytes → UInt64) (u : Unicode) (generation : UInt64) :
    Base.render xxh3 u ⟨SortedMap.empty, []⟩ generation 0
      = some (renderEmptyBase xxh3 generation) := rfl

/-- A new store holds the empty one. -/
theorem stored_create (xxh3 : Bytes → UInt64) (u : Unicode) (env : Env) :
    ∃ s, create xxh3 env = some s ∧ Stored xxh3 u s GraphR.Handle.create := by
  obtain ⟨base, dir, hrender, -, hparse, ⟨hgen, happlied⟩, hreads, hsearches⟩ :=
    Base.parse_render (fits_empty xxh3 u) 1 0
  rw [render_empty, Option.some.injEq] at hrender
  subst hrender
  -- an empty base, and no record
  have hh : Held xxh3 u (renderEmptyBase xxh3 1) dir [] GraphR.Handle.create :=
    ⟨hparse, hreads, hsearches, by rw [happlied]; rfl, .create,
      @Reach.written xxh3 (fun _ => []) _ _ .create,
      List.isChain_nil, by simp, rfl, Nat.zero_le _⟩
  have hopens := @Held.opens xxh3 u dir [] _ (layDown xxh3 env) _ [] 0 env hh rfl
    (by rw [hgen]; exact isLog_encodeHeader 1 env.nowMs (env.fresh + 1)) List.isChain_nil (by simp)
    (by decide : 64 ≤ offMask)
  rw [if_neg (by decide)] at hopens
  unfold create
  cases hopen : opened xxh3 env (layDown xxh3 env) with
  | none =>
    rw [hopen] at hopens
    cases hopens
  | some s =>
    rw [hopen] at hopens
    cases hopens with
    | some hs => exact ⟨s, rfl, hs⟩

/-- Every read and every search over the bytes is that of the decoded handle, and the
    next op gets the same number. -/
structure Shows (xxh3 : Bytes → UInt64) (u : Unicode) (ttl : TtlConfig) (s : State)
    (h : GraphR.Handle) : Prop where
  reads : ∃ view, s.snapshot ttl = some view ∧ view.Same xxh3 (h.snapshot ttl) ∧
    ∀ (F : Type) (A : F32 F) (sc : Scratch F) (text : String) (opts : QueryOpts),
      query A u xxh3 view (searchReader (s.handle.dir.sec s.handle.base)) sc text opts
        = query A u xxh3 (h.snapshot ttl) (h.served.searchReader xxh3 u) sc text opts
  next : s.nextSeq = h.nextSeq

theorem Stored.shows {xxh3 : Bytes → UInt64} {u : Unicode} {s : State} {h : GraphR.Handle}
    (hs : Stored xxh3 u s h) (ttl : TtlConfig) : Shows xxh3 u ttl s h := by
  obtain ⟨rs, w, hh, -⟩ := hs.held
  refine ⟨⟨_, hs.snapshot ttl, hs.same ttl, fun F A sc text opts => ?_⟩, hs.next⟩
  rw [hs.base]
  exact query_same A u xxh3 (hs.base ▸ hs.reads) hh.searches _ ttl sc text opts

/-- A store on disk is the decoded store, whatever happens to it. Let a store be
    created and run through transactions, compactions and opens, a process dying at any
    byte of an append or between the renames of a compaction and the next one opening
    what it left. As long as bases and log have room in the fields of their formats, the
    run over bytes goes through exactly when the decoded run does, and shows the same:
    there a dead append has committed its batch if all bytes of its record were written
    and nothing if not, and a compaction has happened once its base is in place. -/
theorem crash_safe (xxh3 : Bytes → UInt64) (u : Unicode)
    (rank : SortedMap UrlKey NodeModel → List UInt16)
    (hrank : ∀ nodes, (rank nodes).length = nodes.entries.length) (ttl : TtlConfig) (env : Env) :
    ∃ s, create xxh3 env = some s ∧ ∀ events : List Event,
      RunLib.passes (exec xxh3 u rank ttl) (fun s => s.roomFor xxh3 u rank ttl) s events = true →
      Option.Rel (Shows xxh3 u ttl) (RunLib.run (exec xxh3 u rank ttl) s events)
        (RunLib.run (execDecoded xxh3 rank ttl) GraphR.Handle.create events) := by
  obtain ⟨s, hcreate, hs⟩ := stored_create xxh3 u env
  refine ⟨s, hcreate, fun events hpass => ?_⟩
  -- each event keeps the relation, so the run does
  have hrun := RunLib.simulates (R := Stored xxh3 u)
    (fun s h e hs hroom => hs.exec hrank (h := h) e hroom) hs hpass
  generalize RunLib.run (exec xxh3 u rank ttl) s events = s',
    RunLib.run (execDecoded xxh3 rank ttl) GraphR.Handle.create events = h' at hrun ⊢
  cases hrun with
  | none => exact .none
  | some hs' => exact .some (hs'.shows ttl)

/-- A document with an attribute is put; a process dies early in the record of a second
    document, one behind the record of a third, one between the renames. -/
def roughRun : List Event :=
  [.transact ⟨5, 20⟩ [.write (.upsert ⟨"a", 1, 5, 7, some "cat", none, none, false⟩),
      .write (.setAttrs 1 [(2, "x")])],
    .dieInAppend ⟨6, 22⟩ ⟨7, 23⟩ [.write (.upsert ⟨"b", 2, 5, 7, none, none, none, false⟩)] 40,
    .dieInAppend ⟨8, 24⟩ ⟨8, 25⟩ [.write (.upsert ⟨"c", 3, 5, 7, none, none, none, false⟩)] 1000,
    .dieInCompact ⟨9, 26⟩ ⟨10, 28⟩]

/-- The first and the third are there. -/
theorem crash_safe_roughRun : ∃ s s' view, create packHash ⟨5, 9⟩ = some s ∧
    RunLib.run (exec packHash .ascii exactRanks TtlConfig.default) s roughRun = some s' ∧
    s'.snapshot TtlConfig.default = some view ∧ view.attrs 1 = some [(2, "x")] ∧
    view.node 2 = some none ∧ (view.node 3).any Option.isSome = true := by
  have hpass : (create packHash ⟨5, 9⟩).any (fun s => RunLib.passes
      (exec packHash .ascii exactRanks TtlConfig.default)
      (fun s => s.roomFor packHash .ascii exactRanks TtlConfig.default) s roughRun) = true := by
    decide +kernel
  have hdecoded : (RunLib.run (execDecoded packHash exactRanks TtlConfig.default)
      GraphR.Handle.create roughRun).any (fun h =>
        decide ((h.snapshot TtlConfig.default).attrs 1 = some [(2, "x")]) &&
        decide ((h.snapshot TtlConfig.default).node 2 = some none) &&
        ((h.snapshot TtlConfig.default).node 3).any Option.isSome) = true := by
    decide +kernel
  obtain ⟨s, hcreate, hruns⟩ := crash_safe packHash .ascii exactRanks
    (Rank.length_ofNodes F64.exact) TtlConfig.default ⟨5, 9⟩
  rw [hcreate, Option.any_some] at hpass
  have hrel := hruns roughRun hpass
  obtain ⟨h, hrun, hshown⟩ := (Option.any_eq_true _ _).mp hdecoded
  simp only [Bool.and_eq_true, decide_eq_true_eq] at hshown
  rw [hrun] at hrel
  cases hbytes : RunLib.run (exec packHash .ascii exactRanks TtlConfig.default) s roughRun with
  | none =>
    rw [hbytes] at hrel
    cases hrel
  | some s' =>
    rw [hbytes] at hrel
    cases hrel with
    | some hshows =>
      obtain ⟨view, hview, hsame, -⟩ := hshows.reads
      exact ⟨s, s', view, hcreate, hbytes, hview, (hsame.attrs 1).trans hshown.1.1,
        (hsame.node 2).trans hshown.1.2, by rw [hsame.node 3]; exact hshown.2⟩

end GraphR.OnDisk
