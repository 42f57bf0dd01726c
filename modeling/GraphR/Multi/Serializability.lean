import GraphR.Multi.Calm
import GraphR.Multi.Durability

/-! # What snapshots show and what transactions see

    In a calm run every handle shows a prefix of the committed records, whatever
    route an op took into its overlay, and a handle that is caught up shows all
    of them; so the records are those of a serial execution. -/

namespace GraphR.Multi

open Wal ByteLib RunLib

/-! ## Snapshots -/

/-- A handle shows all committed ops up to its last served number, which is
    where a committed record ends; its overlay ascends strictly; and caught up
    under the lock, it has them all. -/
structure ShowsPrefix (s : Sys) (h : Handle) : Prop where
  shown : h.served.view.ops = (opsOf s.hist).filter fun q => q.1 ≤ h.served.servedSeq
  whole : h.served.servedSeq = 0 ∨ ∃ r ∈ s.hist, r.lastSeq = h.served.servedSeq
  ascending : h.served.log.Pairwise fun p q => p.1 < q.1
  synced : h.phase = .synced → h.served.servedSeq = endSeq s.hist

variable {xxh3 : Bytes → UInt64} {s s' : Sys} {fold : Nat → Nat} {b : DiskBase} {l : DiskLog}

theorem Born.showsPrefix (hB : Born xxh3 s fold b l) {p : Nat} {h : Handle}
    (hp : s.parties p = .live h) : ShowsPrefix s h := by
  obtain ⟨-, -, k, hh, -⟩ := hB.live hp
  have hseq : h.served.servedSeq = endSeq (s.hist.take k) := hh.servedSeq hB.disk
  have hrise : Rising s.hist := hB.disk.rising
  refine
    { shown := ?_
      whole := ?_
      ascending := ?_
      synced := fun hphase => (hB.synced hp hphase).2 }
  · rw [hseq, hrise.filter_upto k]
    exact hh.view_ops hB.disk
  · rw [hseq]
    cases hlast : (s.hist.take k).getLast? with
    | none =>
      refine .inl ?_
      rw [List.getLast?_eq_none_iff.mp hlast, endSeq_nil]
    | some r =>
      refine .inr ⟨r, List.mem_of_mem_take (List.mem_of_getLast? hlast), ?_⟩
      unfold endSeq
      rw [hlast]
      rfl
  · rw [hh.serves.log]
    exact (hrise.take k |>.drop _).ops_ascending

/-- In every state of a calm run every handle shows a prefix of the committed
    records, and no calm step takes one back. -/
theorem snapshots_show_prefixes {as : List Act}
    (hrun : Run (Sys.step xxh3) Calm Sys.init as s) :
    (∀ p h, s.parties p = .live h → ShowsPrefix s h) ∧
      ∀ a s', Calm s a → s.step xxh3 a = some s' → ServedGrows s s' := by
  have hinv := CalmInv.run hrun
  refine ⟨?_, ?_⟩
  · intro p h hp
    rcases hinv.1 with hU | ⟨fold, b, l, hB⟩
    · exact absurd hp (hU.not_live p h)
    · exact hB.showsPrefix hp
  · intro a s' hc hstep
    exact hinv.1.servedGrows (hinv.step hc hstep).2 hstep

/-- A sufficient check for `Calm`. -/
def calmCheck (s : Sys) : Act → Bool
  | .crash _ | .fail _ => false
  | .reloadTail p =>
    match s.parties p with
    | .live h =>
      match h.phase with
      | .tail now => now.wal.map Prod.fst = s.log.map DiskLog.ident
      | _ => false
    | _ => false
  | _ => true

theorem calmCheck_sound {a : Act} (h : calmCheck s a = true) : Calm s a := by
  cases a <;> simp only [calmCheck] at h <;> try trivial
  case reloadTail p =>
    intro h₀ now hp hphase
    rw [hp] at h
    simp only [hphase, decide_eq_true_eq] at h
    exact h

/-- Handle 1 commits, compacts and commits again, handle 0 reloading in
    between: by a tail read, and by a full one. -/
def reloadRun : List Act :=
  threeHandles ++ commitActs 1 [removeOp 1] 48 ++ reloadActs 0 ++ compactActs 1 ++
    commitActs 1 [removeOp 2] 48 ++ [.reload 0, .reloadStat 0, .reloadMap 0, .reloadRead 0]

theorem snapshots_show_prefixes_reloadRun :
    ∃ s, run (Sys.step zeroSum) Sys.init reloadRun = some s ∧
      (shownOps s 0).map Prod.fst = [1, 2] ∧ ∀ p h, s.parties p = .live h → ShowsPrefix s h := by
  have hrun : (checkedRun (Sys.step zeroSum) calmCheck Sys.init reloadRun).any
      (fun s => (shownOps s 0).map Prod.fst = [1, 2]) = true := by decide +kernel
  obtain ⟨s, hs, hshown⟩ := Option.any_eq_true _ _ |>.mp hrun
  have h := Run.of_checkedRun (fun _ _ => calmCheck_sound) hs
  exact ⟨s, h.run_eq, by simpa using hshown, (snapshots_show_prefixes h).1⟩

/-- Handle 0 has read record 1 and, by its `stat`, will read the tail that holds
    record 2; before it does, handle 1 compacts and commits records 3 and 4
    into the new log. -/
def tailOfAnother : List Act :=
  threeHandles ++ commitActs 1 [removeOp 1] 48 ++ reloadActs 0 ++ commitActs 1 [removeOp 2] 48 ++
    [.reload 0, .reloadStat 0] ++ compactActs 1 ++ commitActs 1 [removeOp 3] 48 ++
    commitActs 1 [removeOp 4] 48 ++ [.reloadTail 0]

/-- The last number handle `p` serves. -/
def shownSeq (s : Sys) (p : Nat) : Nat :=
  match s.parties p with
  | .live h => h.served.servedSeq
  | _ => 0

/-- Handle 0 shows records 1 and 4 and nothing between. -/
theorem tailOfAnother_shows_gap :
    ∃ s, run (Sys.step zeroSum) Sys.init tailOfAnother = some s ∧
      (shownOps s 0).map Prod.fst = [1, 4] ∧ ¬∀ p h, s.parties p = .live h → ShowsPrefix s h := by
  have hrun : (run (Sys.step zeroSum) Sys.init tailOfAnother).any (fun s =>
      (shownOps s 0).map Prod.fst = [1, 4] ∧ shownSeq s 0 = 4 ∧
        (opsOf s.hist).map Prod.fst = [1, 2, 3, 4]) = true := by decide +kernel
  obtain ⟨s, hs, hprop⟩ := Option.any_eq_true _ _ |>.mp hrun
  simp only [decide_eq_true_eq] at hprop
  obtain ⟨hshown, hseq, hhist⟩ := hprop
  refine ⟨s, hs, hshown, ?_⟩
  intro hall
  cases hp : s.parties 0 with
  | live h =>
    have hexact := (hall 0 h hp).shown
    simp only [shownOps, shownSeq, hp] at hshown hseq
    rw [hseq] at hexact
    have hnums := congrArg (List.map Prod.fst) hexact
    rw [hshown] at hnums
    have hkeep : ((opsOf s.hist).filter fun q => q.1 ≤ 4).map Prod.fst
        = ((opsOf s.hist).map Prod.fst).filter fun n => n ≤ 4 := by
      rw [List.filter_map]
      rfl
    rw [hkeep, hhist] at hnums
    exact absurd hnums (by decide)
  | _ =>
    simp only [shownOps, hp] at hshown
    cases hshown

/-! ## Transactions -/

/-- A transaction that is refused or aborts changes nothing but where its handle
    stands: not the files, not the records, no overlay and no staged op. -/
def AbortsClean (xxh3 : Bytes → UInt64) (s : Sys) : Prop :=
  (∀ p h f s', s.parties p = .live h → h.phase = .synced → f h.served.view = none →
    s.step xxh3 (.transact p f) = some s' → s' = s.setParty p (.live { h with phase := .done })) ∧
  ∀ p, s.lock ≠ .free → s.step xxh3 (.acquire p) = none

/-- The committed records are those of a serial execution in log order, they are
    what the files hold, and a transaction that does not commit leaves
    nothing. -/
structure Serializable (xxh3 : Bytes → UInt64) (s : Sys) : Prop where
  serial : Serial s.origins s.hist
  onDisk : OnDisk xxh3 s
  aborts : AbortsClean xxh3 s

theorem abortsClean (xxh3 : Bytes → UInt64) (s : Sys) : AbortsClean xxh3 s := by
  refine ⟨?_, ?_⟩
  · intro p h f s' hp hphase hf hstep
    simp only [Sys.step, Sys.party, hp, Sys.act, hphase, hf, Option.bind_none] at hstep
    exact (Option.some.inj hstep).symm
  · intro p hlock
    simp only [Sys.step, Sys.party]
    split
    next h hp =>
      simp only [Sys.act]
      split
      next _ hfree => exact absurd hfree hlock
      next => rfl
    next => rfl

/-- Transactions of a calm run are serializable. -/
theorem transactions_serializable {as : List Act}
    (hrun : Run (Sys.step xxh3) Calm Sys.init as s) : Serializable xxh3 s := by
  rcases (CalmInv.run hrun).1 with hU | ⟨fold, b, l, hB⟩
  · refine ⟨?_, ?_, abortsClean xxh3 s⟩
    · rw [hU.origins, hU.hist]
      exact .nil
    · intro b hb
      rw [hU.base] at hb
      cases hb
  · exact ⟨hB.serial, hB.onDisk, abortsClean xxh3 s⟩

/-- A closure that removes the document numbered by how many ops it sees. -/
def countOps : Closure := fun v => some [removeOp (UInt64.ofNat v.ops.length)]

/-- Handle `p` runs `f` as a transaction, one write of `n` bytes. -/
def transactActs (p : Nat) (f : Closure) (n : Nat) : List Act :=
  [.acquire p, .sync p, .transact p f, .write p n, .complete p, .release p]

/-- Handle `p` reloads base and log. -/
def reloadFullActs (p : Nat) : List Act := [.reload p, .reloadStat p, .reloadMap p, .reloadRead p]

/-- Two transactions that count, and between them one that aborts. -/
def countRun : List Act :=
  threeHandles ++ transactActs 0 countOps 48 ++
    [.acquire 1, .sync 1, .transact 1 (fun _ => none), .release 1] ++ transactActs 2 countOps 48

theorem transactions_serializable_countRun :
    ∃ s, run (Sys.step zeroSum) Sys.init countRun = some s ∧
      s.hist.map SealedRecord.ops = [[(removeOp 0).val], [(removeOp 1).val]] ∧
      Serializable zeroSum s := by
  have hrun : (checkedRun (Sys.step zeroSum) calmCheck Sys.init countRun).any (fun s =>
      s.hist.map SealedRecord.ops = [[(removeOp 0).val], [(removeOp 1).val]]) = true := by
    decide +kernel
  obtain ⟨s, hs, hops⟩ := Option.any_eq_true _ _ |>.mp hrun
  have h := Run.of_checkedRun (fun _ _ => calmCheck_sound) hs
  exact ⟨s, h.run_eq, by simpa using hops, transactions_serializable h⟩

/-- What the last record of a serial execution is. -/
theorem Serial.last {os : List Origin} {o : Origin} {rs : List SealedRecord}
    (h : Serial (os ++ [o]) rs) : ∃ before r, rs = before ++ [r] ∧ o.Makes before r := by
  generalize hos : os ++ [o] = all at h
  cases h with
  | nil => simp at hos
  | snoc _ hmakes _ =>
    obtain ⟨-, hlast⟩ := List.append_inj' hos rfl
    cases hlast
    exact ⟨_, _, rfl, hmakes⟩

/-- Where the origin of a transaction's record comes from. -/
theorem origin_of_transact {s₁ s₂ : Sys} {p n : Nat} {f : Closure}
    (h₁ : s.step xxh3 (.transact p f) = some s₁) (h₂ : s₁.step xxh3 (.write p n) = some s₂)
    (hgrown : s₂.origins.length = s.origins.length + 1) :
    ∃ left, s₂.origins = s.origins ++ [.transact left f] := by
  simp only [Sys.step, Sys.party] at h₁
  split at h₁
  next h hp =>
    simp only [Sys.act] at h₁
    split at h₁
    next hphase =>
      split at h₁
      next h' hstart =>
        -- the handle now appends on behalf of `f`
        cases h₁
        obtain ⟨ops, -, hstart⟩ := Option.bind_eq_some_iff.mp hstart
        obtain ⟨r, l, -, rfl⟩ := startAppend_cases hstart
        simp only [Sys.step, Sys.party, setParty_self, Sys.act] at h₂
        split_ifs at h₂
        cases h₂
        unfold Sys.stepWrite at hgrown ⊢
        split_ifs at hgrown ⊢ with hfull
        · exact ⟨h.staged, rfl⟩
        · change s.origins.length = s.origins.length + 1 at hgrown
          omega
      next =>
        cases h₁
        simp [Sys.step, Sys.party, Sys.act] at h₂
    next => cases h₁
  next => cases h₁

theorem complete_origins {p : Nat} (h : s.step xxh3 (.complete p) = some s') :
    s'.origins = s.origins := by
  simp only [Sys.step, Sys.party] at h
  split at h
  next h₀ hp =>
    simp only [Sys.act] at h
    split at h
    next =>
      split_ifs at h
      cases h
      rfl
    next => cases h
  next => cases h

/-- Three generations of handle 0 are pinned by snapshots, so that the base of
    the compaction in `tailOfAnother` cannot be installed. -/
def pinnedBehindGap : List Act :=
  threeHandles ++ [.pin 0] ++ compactActs 1 ++ reloadFullActs 0 ++ [.pin 0] ++ compactActs 1 ++
    reloadFullActs 0 ++ [.pin 0] ++ compactActs 1 ++ reloadFullActs 0 ++
    commitActs 1 [removeOp 1] 48 ++ reloadActs 0 ++ commitActs 1 [removeOp 2] 48 ++
    [.reload 0, .reloadStat 0] ++ compactActs 1 ++ commitActs 1 [removeOp 3] 48 ++
    commitActs 1 [removeOp 4] 48 ++ [.reloadTail 0, .acquire 0, .sync 0]

/-- Handle 0 then runs a transaction that sees two of the four ops. -/
theorem pinnedBehindGap_not_serializable :
    ∃ s, run (Sys.step zeroSum) Sys.init
        (pinnedBehindGap ++ [.transact 0 countOps, .write 0 48, .complete 0]) = some s ∧
      ¬Serializable zeroSum s := by
  have hrun : (run (Sys.step zeroSum) Sys.init pinnedBehindGap).any (fun t =>
      t.origins.length = 4 ∧ (run (Sys.step zeroSum) t [.transact 0 countOps, .write 0 48]).any
        fun u => u.origins.length = 5 ∧ (u.step zeroSum (.complete 0)).any fun s =>
          (opsOf s.hist.dropLast).length = 4 ∧
            s.hist.getLast?.map SealedRecord.ops = some [(removeOp 2).val]) = true := by
    decide +kernel
  obtain ⟨t, ht, hrun⟩ := Option.any_eq_true _ _ |>.mp hrun
  simp only [decide_eq_true_eq] at hrun
  obtain ⟨hlen, hrun⟩ := hrun
  obtain ⟨u, hu, hrun⟩ := Option.any_eq_true _ _ |>.mp hrun
  simp only [decide_eq_true_eq] at hrun
  obtain ⟨hlen', hrun⟩ := hrun
  obtain ⟨s, hs, hrun⟩ := Option.any_eq_true _ _ |>.mp hrun
  simp only [decide_eq_true_eq] at hrun
  obtain ⟨hbefore, hlast⟩ := hrun
  refine ⟨s, ?_, ?_⟩
  · rw [run_append, ht, Option.bind_some]
    have hsplit : [Act.transact 0 countOps, .write 0 48, .complete 0]
        = [.transact 0 countOps, .write 0 48] ++ [.complete 0] := rfl
    rw [hsplit, run_append, hu, Option.bind_some]
    simp [run, hs]
  · intro hser
    -- the last record is the transaction's
    obtain ⟨u₁, hu₁, hu₂⟩ : ∃ u₁, t.step zeroSum (.transact 0 countOps) = some u₁ ∧
        u₁.step zeroSum (.write 0 48) = some u := by
      simpa [run, Option.bind_eq_some_iff] using hu
    obtain ⟨left, horigins⟩ := origin_of_transact hu₁ hu₂ (by omega)
    have hserial := hser.serial
    rw [complete_origins hs, horigins] at hserial
    obtain ⟨before, r, hhist, v, ops, hview, hf, hops⟩ := hserial.last
    -- on all earlier records it would have seen four ops
    rw [hhist, List.dropLast_concat, ← hview] at hbefore
    rw [hhist, List.getLast?_concat, Option.map_some, hops] at hlast
    unfold countOps at hf
    rw [hbefore] at hf
    cases hf
    have hends := congrArg List.getLast? (Option.some.inj hlast)
    rw [List.map_append, List.map_singleton, List.getLast?_concat] at hends
    exact absurd hends (by decide)

end GraphR.Multi
