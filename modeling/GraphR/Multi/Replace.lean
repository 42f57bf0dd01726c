import GraphR.Library.Bytes
import GraphR.Library.Run

/-! # Replacing a file

    `write_atomic`: the parts are written to a temporary of the caller's own, which
    is synced and renamed over the file. Any number of calls of any number of
    processes run at once in one directory; a step is one system call, its failure,
    or the death of a process, which leaves its temporaries behind. A process id
    may come back, its counter at zero: a temporary of the same name may then be
    there already.

    A file is an inode a name refers to; a write through an open file goes to its
    inode, whatever names it by then. -/

namespace GraphR.Multi.Replace

open ByteLib RunLib

/-! ## State -/

/-- A name in the directory: a file, or the temporary
    `.{name}.{pid}.{seq}.tmp`. -/
inductive Name where
  | file (name : String)
  | temp (name : String) (pid seq : Nat)
  deriving DecidableEq

/-- What a call does next. -/
inductive Phase where
  /-- `create_new(true).open(&tmp)`. -/
  | opening
  /-- `f.write_all(p)` of what is left of each part. -/
  | writing (inode : Nat) (rest : List Bytes)
  /-- `finish(&f)` and `f.sync_all()`. -/
  | syncing (inode : Nat)
  /-- `fs::rename(&tmp, path)`. -/
  | moving (inode : Nat)
  /-- `fs::remove_file(&tmp)`, and the error is returned. -/
  | cleaning
  /-- `sync_dir(dir)`, and `Ok` is returned. -/
  | placed
  deriving DecidableEq

namespace Phase

/-- The open temporary. -/
def inode : Phase → Option Nat
  | writing i _ | syncing i | moving i => some i
  | _ => none

/-- What is still to be written to it. -/
def rest : Phase → List Bytes
  | writing _ ps => ps
  | _ => []

end Phase

/-- A call of `write_atomic`. -/
structure Call where
  path : String
  parts : List Bytes
  pid : Nat
  seq : Nat
  phase : Phase
  deriving DecidableEq

def Call.temp (x : Call) : Name := .temp x.path x.pid x.seq

def Call.to (x : Call) (phase : Phase) : Call := { x with phase }

/-- The directory, the processes' counters and the calls. The last two fields are
    history, read by no step: what was asked of each call, and the files put in
    place, by which call and with what content. -/
structure State where
  dir : Name → Option Nat
  data : Nat → Bytes
  /-- No inode from here on is in use. -/
  fresh : Nat
  /-- `SEQ` of each process. -/
  seqs : Nat → Nat
  calls : Nat → Option Call
  begun : List (String × List Bytes)
  renamed : List (Nat × String × Bytes)

namespace State

variable (s : State)

/-- What a name reads as. -/
def read (n : Name) : Option Bytes := (s.dir n).map s.data

def setCall (c : Nat) (x : Option Call) : State :=
  { s with calls := Function.update s.calls c x }

def link (n : Name) (i : Option Nat) : State := { s with dir := Function.update s.dir n i }

@[simp] theorem calls_setCall (c c' : Nat) (x : Option Call) :
    (s.setCall c x).calls c' = if c' = c then x else s.calls c' := Function.update_apply ..

@[simp] theorem dir_link (n n' : Name) (i : Option Nat) :
    (s.link n i).dir n' = if n' = n then i else s.dir n' := Function.update_apply ..

/-- `fs::rename`: the temporary of `x`, inode `i`, is the file now. -/
def place (c : Nat) (x : Call) (i : Nat) : State :=
  ({ s with renamed := s.renamed ++ [(c, x.path, s.data i)] }.link (.file x.path) (some i)).link
    x.temp none

/-- What the last call that put `name` in place wrote. -/
def last (name : String) : Option Bytes :=
  ((s.renamed.filter fun e => e.2.1 = name).getLast?).map fun e => e.2.2

end State

/-! ## Steps -/

inductive Act where
  /-- A call, by process `pid`. -/
  | begin (pid : Nat) (path : String) (parts : List Bytes)
  /-- The next system call of call `c`, but for a write. -/
  | proceed (c : Nat)
  /-- `n` more bytes are written. -/
  | write (c n : Nat)
  /-- The system call fails. -/
  | fail (c : Nat)
  /-- The temporary cannot be removed. -/
  | leave (c : Nat)
  | crash (pid : Nat)
  deriving DecidableEq

/-- One system call. -/
def proceed (s : State) (c : Nat) (x : Call) : Option State :=
  match x.phase with
  | .opening =>
    match s.dir x.temp with
    | some _ => some (s.setCall c (some (x.to .cleaning)))
    | none =>
      some (({ s with data := Function.update s.data s.fresh [], fresh := s.fresh + 1 }.link x.temp
        (some s.fresh)).setCall c (some (x.to (.writing s.fresh x.parts))))
  | .writing i [] => some (s.setCall c (some (x.to (.syncing i))))
  | .writing i (p :: ps) =>
    if p.isEmpty then some (s.setCall c (some (x.to (.writing i ps)))) else none
  | .syncing i => some (s.setCall c (some (x.to (.moving i))))
  | .moving i => some ((s.place c x i).setCall c (some (x.to .placed)))
  | .cleaning => some ((s.link x.temp none).setCall c none)
  | .placed => some (s.setCall c none)

def step (s : State) : Act → Option State
  | .begin pid path parts =>
    let x : Call := ⟨path, parts, pid, s.seqs pid, .opening⟩
    some ({ s with seqs := Function.update s.seqs pid (s.seqs pid + 1)
                   begun := s.begun ++ [(path, parts)] }.setCall s.begun.length (some x))
  | .proceed c => (s.calls c).bind (proceed s c)
  | .write c n =>
    match s.calls c with
    | some x =>
      match x.phase with
      | .writing i (p :: ps) =>
        if 0 < n ∧ n ≤ p.length then
          some ({ s with data := Function.update s.data i (s.data i ++ p.take n) }.setCall c
            (some (x.to (.writing i (p.drop n :: ps)))))
        else none
      | _ => none
    | none => none
  | .fail c =>
    match s.calls c with
    | some x =>
      match x.phase with
      | .opening | .writing .. | .syncing _ | .moving _ =>
        some (s.setCall c (some (x.to .cleaning)))
      | _ => none
    | none => none
  | .leave c =>
    match s.calls c with
    | some x => if x.phase = .cleaning then some (s.setCall c none) else none
    | none => none
  | .crash pid =>
    some { s with
      calls := fun c => (s.calls c).filter fun x => x.pid ≠ pid
      seqs := Function.update s.seqs pid 0 }

/-! ## The invariant -/

/-- A directory before any call: its files, and temporaries of the dead. -/
structure Start (s : State) : Prop where
  fresh : ∀ n i, s.dir n = some i → i < s.fresh
  calls : ∀ c, s.calls c = none
  begun : s.begun = []
  renamed : s.renamed = []

/-- What is known of the calls. -/
structure Known (s : State) : Prop where
  seqs : ∀ c x, s.calls c = some x → x.seq < s.seqs x.pid
  /-- No two calls have one temporary. -/
  apart : ∀ c c' x x', s.calls c = some x → s.calls c' = some x' → x.pid = x'.pid →
    x.seq = x'.seq → c = c'
  begun : ∀ c x, s.calls c = some x → s.begun[c]? = some (x.path, x.parts)

/-- What every run keeps. -/
structure Inv (s₀ s : State) : Prop extends Known s where
  fresh : ∀ n i, s.dir n = some i → i < s.fresh
  /-- An open temporary is where its call put it, under that name only, and holds
      what the call has written. -/
  whole : ∀ c x i, s.calls c = some x → x.phase.inode = some i →
    s.dir x.temp = some i ∧ (∀ n, s.dir n = some i → n = x.temp) ∧
      s.data i ++ x.phase.rest.flatten = x.parts.flatten
  /-- A file holds what the last call put there. -/
  reads : ∀ name, s.read (.file name) = (s.last name).or (s₀.read (.file name))
  renamed : ∀ e ∈ s.renamed, ∃ parts, s.begun[e.1]? = some (e.2.1, parts) ∧ e.2.2 = parts.flatten
  /-- A call put its file in place if and only if it is about to return `Ok`. -/
  settled : ∀ c x, s.calls c = some x → (c ∈ s.renamed.map Prod.fst ↔ x.phase = .placed)

theorem Start.inv {s : State} (h : Start s) : Inv s s where
  fresh := h.fresh
  seqs := by simp [h.calls]
  apart := by simp [h.calls]
  begun := by simp [h.calls]
  whole := by simp [h.calls]
  reads := by simp [State.last, h.renamed]
  renamed := by simp [h.renamed]
  settled := by simp [h.calls]

/-! ## What each step keeps -/

section keeps
variable {s₀ s t : State} {c : Nat} {x : Call}

/-- A call is the one that moved, or it was there before. -/
theorem calls_cases {calls : Nat → Option Call} {z y : Call} {c' : Nat}
    (h : Function.update calls c (some z) c' = some y) :
    c' = c ∧ y = z ∨ c' ≠ c ∧ calls c' = some y := by
  rw [Function.update_apply] at h
  split_ifs at h with hc
  · exact .inl ⟨hc, (Option.some.inj h).symm⟩
  · exact .inr ⟨hc, h⟩

/-- A call in another phase is known as before. -/
theorem Known.to (h : Known s) (hx : s.calls c = some x) {phase : Phase}
    (hcalls : t.calls = Function.update s.calls c (some (x.to phase))) (hseqs : t.seqs = s.seqs)
    (hbegun : t.begun = s.begun) : Known t := by
  have hold : ∀ c' y, t.calls c' = some y → ∃ z, s.calls c' = some z ∧ z.pid = y.pid ∧
      z.seq = y.seq ∧ z.path = y.path ∧ z.parts = y.parts := by
    intro c' y hy
    rw [hcalls] at hy
    rcases calls_cases hy with ⟨rfl, rfl⟩ | ⟨-, hy'⟩
    · exact ⟨x, hx, rfl, rfl, rfl, rfl⟩
    · exact ⟨y, hy', rfl, rfl, rfl, rfl⟩
  constructor
  · intro c' y hy
    obtain ⟨z, hz, hpid, hseq, -, -⟩ := hold c' y hy
    rw [hseqs, ← hpid, ← hseq]
    exact h.seqs c' z hz
  · intro c₁ c₂ y₁ y₂ hy₁ hy₂ hpid hseq
    obtain ⟨z₁, hz₁, hpid₁, hseq₁, -, -⟩ := hold c₁ y₁ hy₁
    obtain ⟨z₂, hz₂, hpid₂, hseq₂, -, -⟩ := hold c₂ y₂ hy₂
    exact h.apart c₁ c₂ z₁ z₂ hz₁ hz₂ (hpid₁.trans (hpid.trans hpid₂.symm))
      (hseq₁.trans (hseq.trans hseq₂.symm))
  · intro c' y hy
    obtain ⟨z, hz, -, -, hpath, hparts⟩ := hold c' y hy
    rw [hbegun, ← hpath, ← hparts]
    exact h.begun c' z hz

/-- A call goes on to `phase`, with the temporary it has and what is left to
    write. -/
theorem Inv.advance (h : Inv s₀ s) (hx : s.calls c = some x) {phase : Phase}
    (hopen : ∀ i, phase.inode = some i →
      x.phase.inode = some i ∧ x.phase.rest.flatten = phase.rest.flatten)
    (hplaced : phase = .placed ↔ x.phase = .placed) :
    Inv s₀ (s.setCall c (some (x.to phase))) where
  toKnown := h.toKnown.to hx rfl rfl rfl
  fresh := h.fresh
  whole c' y i hy hi := by
    rcases calls_cases hy with ⟨rfl, rfl⟩ | ⟨-, hy'⟩
    · obtain ⟨hinode, hrest⟩ := hopen i hi
      obtain ⟨hdir, honly, hwhole⟩ := h.whole c' x i hx hinode
      rw [hrest] at hwhole
      exact ⟨hdir, honly, hwhole⟩
    · exact h.whole c' y i hy' hi
  reads := h.reads
  renamed := h.renamed
  settled c' y hy := by
    rcases calls_cases hy with ⟨rfl, rfl⟩ | ⟨-, hy'⟩
    · exact (h.settled c' x hx).trans hplaced.symm
    · exact h.settled c' y hy'

/-- Calls end; the rest stays. -/
theorem Inv.restrict (h : Inv s₀ s) {calls : Nat → Option Call} {seqs : Nat → Nat}
    (hcalls : ∀ c x, calls c = some x → s.calls c = some x ∧ s.seqs x.pid = seqs x.pid) :
    Inv s₀ { s with calls, seqs } where
  fresh := h.fresh
  seqs c x hx := by
    have hseq := h.seqs c x (hcalls c x hx).1
    rw [(hcalls c x hx).2] at hseq
    exact hseq
  apart c c' x x' hx hx' := h.apart c c' x x' (hcalls c x hx).1 (hcalls c' x' hx').1
  begun c x hx := h.begun c x (hcalls c x hx).1
  whole c x i hx := h.whole c x i (hcalls c x hx).1
  reads := h.reads
  renamed := h.renamed
  settled c x hx := h.settled c x (hcalls c x hx).1

theorem Inv.drop (h : Inv s₀ s) : Inv s₀ (s.setCall c none) := by
  refine h.restrict ?_
  intro c' y hy
  rw [Function.update_apply] at hy
  split_ifs at hy
  exact ⟨hy, rfl⟩

/-- A name no open temporary and no file has is unlinked. -/
theorem Inv.unlink (h : Inv s₀ s) {n : Name} (hfile : ∀ name, n ≠ .file name)
    (hfree : ∀ c x i, s.calls c = some x → x.phase.inode = some i → x.temp ≠ n) :
    Inv s₀ (s.link n none) where
  toKnown := ⟨h.seqs, h.apart, h.begun⟩
  fresh n' i hi := by
    rw [State.dir_link] at hi
    split_ifs at hi
    exact h.fresh n' i hi
  whole c x i hx hi := by
    obtain ⟨hdir, honly, hwhole⟩ := h.whole c x i hx hi
    refine ⟨?_, ?_, hwhole⟩
    · rw [State.dir_link, if_neg (hfree c x i hx hi)]
      exact hdir
    · intro n' hn'
      rw [State.dir_link] at hn'
      split_ifs at hn'
      exact honly n' hn'
  reads name := by
    have hread : (s.link n none).read (.file name) = s.read (.file name) := by
      rw [State.read, State.dir_link, if_neg (hfile name).symm]
      rfl
    rw [hread]
    exact h.reads name
  renamed := h.renamed
  settled := h.settled

/-- A temporary belongs to one call. -/
theorem Known.temp_ne (h : Known s) (hx : s.calls c = some x) {c' : Nat} {y : Call}
    (hy : s.calls c' = some y) (hne : c' ≠ c) : y.temp ≠ x.temp := by
  intro heq
  injection heq with _ hpid hseq
  exact hne (h.apart c' c y x hy hx hpid hseq)

/-- No file is an open temporary. -/
theorem Inv.file_ne (h : Inv s₀ s) (hx : s.calls c = some x) {i : Nat}
    (hi : x.phase.inode = some i) (name : String) : s.dir (.file name) ≠ some i := by
  intro hdir
  cases (h.whole c x i hx hi).2.1 _ hdir

/-- Two calls have two open temporaries. -/
theorem Inv.inode_ne (h : Inv s₀ s) (hx : s.calls c = some x) {i j c' : Nat} {y : Call}
    (hi : x.phase.inode = some i) (hy : s.calls c' = some y) (hj : y.phase.inode = some j)
    (hne : c' ≠ c) : j ≠ i := by
  intro heq
  have hdir := (h.whole c' y j hy hj).1
  rw [heq] at hdir
  exact h.toKnown.temp_ne hx hy hne ((h.whole c x i hx hi).2.1 _ hdir)

/-- Files that name other inodes read as before. -/
theorem read_of_ne {dir : Name → Option Nat} {data : Nat → Bytes} {i : Nat} {v : Bytes} {n : Name}
    (hne : dir n ≠ some i) :
    (dir n).map (Function.update data i v) = (dir n).map data := by
  cases hdir : dir n with
  | none => rfl
  | some j =>
    rw [Option.map_some, Option.map_some, Function.update_of_ne]
    intro hji
    exact hne (by rw [hdir, hji])

/-- The temporary is created. -/
theorem Inv.create (h : Inv s₀ s) (hx : s.calls c = some x) (hphase : x.phase = .opening) :
    Inv s₀ (({ s with data := Function.update s.data s.fresh [], fresh := s.fresh + 1 }.link x.temp
      (some s.fresh)).setCall c (some (x.to (.writing s.fresh x.parts)))) where
  toKnown := h.toKnown.to hx rfl rfl rfl
  fresh n i hi := by
    have hdir : Function.update s.dir x.temp (some s.fresh) n = some i := hi
    rw [Function.update_apply] at hdir
    show i < s.fresh + 1
    split_ifs at hdir
    · cases hdir
      exact Nat.lt_succ_self _
    · exact Nat.lt_succ_of_lt (h.fresh n i hdir)
  whole c' y i hy hi := by
    show Function.update s.dir x.temp (some s.fresh) y.temp = some i ∧
      (∀ n, Function.update s.dir x.temp (some s.fresh) n = some i → n = y.temp) ∧
      Function.update s.data s.fresh [] i ++ y.phase.rest.flatten = y.parts.flatten
    rcases calls_cases hy with ⟨rfl, rfl⟩ | ⟨hne, hy'⟩
    · cases hi
      refine ⟨Function.update_self .., ?_, ?_⟩
      · intro n hn
        rw [Function.update_apply] at hn
        split_ifs at hn with hname
        · exact hname
        · exact absurd (h.fresh n _ hn) (Nat.lt_irrefl _)
      · rw [Function.update_self]
        rfl
    · obtain ⟨hdir, honly, hwhole⟩ := h.whole c' y i hy' hi
      have hlt := h.fresh _ i hdir
      refine ⟨?_, ?_, ?_⟩
      · rw [Function.update_of_ne (h.toKnown.temp_ne hx hy' hne)]
        exact hdir
      · intro n hn
        rw [Function.update_apply] at hn
        split_ifs at hn with hname
        · cases hn
          exact absurd hlt (Nat.lt_irrefl _)
        · exact honly n hn
      · rw [Function.update_of_ne (Nat.ne_of_lt hlt)]
        exact hwhole
  reads name := by
    have hne : s.dir (.file name) ≠ some s.fresh := by
      intro hdir
      exact Nat.lt_irrefl _ (h.fresh _ _ hdir)
    show (Function.update s.dir x.temp (some s.fresh) (.file name)).map _ = _
    rw [Function.update_of_ne (by simp [Call.temp])]
    exact (read_of_ne hne).trans (h.reads name)
  renamed := h.renamed
  settled c' y hy := by
    rcases calls_cases hy with ⟨rfl, rfl⟩ | ⟨-, hy'⟩
    · have hset := h.settled c' x hx
      rw [hphase] at hset
      exact hset.trans (by simp [Call.to])
    · exact h.settled c' y hy'

/-- `n` more bytes reach it. -/
theorem Inv.write (h : Inv s₀ s) (hx : s.calls c = some x) {i n : Nat} {p : Bytes}
    {ps : List Bytes} (hphase : x.phase = .writing i (p :: ps)) :
    Inv s₀ ({ s with data := Function.update s.data i (s.data i ++ p.take n) }.setCall c
      (some (x.to (.writing i (p.drop n :: ps))))) where
  toKnown := h.toKnown.to hx rfl rfl rfl
  fresh := h.fresh
  whole c' y j hy hj := by
    have hi : x.phase.inode = some i := by rw [hphase]; rfl
    rcases calls_cases hy with ⟨rfl, rfl⟩ | ⟨hne, hy'⟩
    · cases hj
      obtain ⟨hdir, honly, hwhole⟩ := h.whole c' x i hx hi
      refine ⟨hdir, honly, ?_⟩
      show Function.update s.data i _ i ++ (p.drop n :: ps).flatten = x.parts.flatten
      rw [Function.update_self, ← hwhole, hphase]
      show s.data i ++ p.take n ++ (p.drop n ++ ps.flatten) = s.data i ++ (p ++ ps.flatten)
      rw [List.append_assoc, ← List.append_assoc (p.take n), List.take_append_drop]
    · obtain ⟨hdir, honly, hwhole⟩ := h.whole c' y j hy' hj
      refine ⟨hdir, honly, ?_⟩
      show Function.update s.data i _ j ++ y.phase.rest.flatten = y.parts.flatten
      rw [Function.update_of_ne (h.inode_ne hx hi hy' hj hne)]
      exact hwhole
  reads name := by
    have hi : x.phase.inode = some i := by rw [hphase]; rfl
    exact (read_of_ne (h.file_ne hx hi name)).trans (h.reads name)
  renamed := h.renamed
  settled c' y hy := by
    rcases calls_cases hy with ⟨rfl, rfl⟩ | ⟨-, hy'⟩
    · have hset := h.settled c' x hx
      rw [hphase] at hset
      exact hset.trans (by simp [Call.to])
    · exact h.settled c' y hy'

/-- It is renamed over the file. -/
theorem Inv.place (h : Inv s₀ s) (hx : s.calls c = some x) {i : Nat}
    (hphase : x.phase = .moving i) :
    Inv s₀ ((s.place c x i).setCall c (some (x.to .placed))) := by
  have hi : x.phase.inode = some i := by rw [hphase]; rfl
  obtain ⟨hdir, honly, hwhole⟩ := h.whole c x i hx hi
  rw [hphase] at hwhole
  have hcontent : s.data i = x.parts.flatten := by simpa [Phase.rest] using hwhole
  -- the directory after the rename
  have hafter : ∀ n, Function.update (Function.update s.dir (.file x.path) (some i)) x.temp none n
      = if n = x.temp then none else if n = .file x.path then some i else s.dir n := by
    intro n
    rw [Function.update_apply, Function.update_apply]
  constructor
  · exact h.toKnown.to hx rfl rfl rfl
  · intro n j hj
    have hj' := (hafter n).symm.trans hj
    split_ifs at hj' with _ hfile
    · cases hj'
      exact h.fresh _ _ hdir
    · exact h.fresh n j hj'
  · intro c' y j hy hj
    rcases calls_cases hy with ⟨rfl, rfl⟩ | ⟨hne, hy'⟩
    · cases hj
    · obtain ⟨hdir', honly', hwhole'⟩ := h.whole c' y j hy' hj
      refine ⟨?_, ?_, hwhole'⟩
      · rw [← hdir']
        refine (hafter y.temp).trans ?_
        rw [if_neg (h.toKnown.temp_ne hx hy' hne), if_neg (by simp [Call.temp])]
      · intro n hn
        have hn' := (hafter n).symm.trans hn
        split_ifs at hn' with _ hfile
        · cases hn'
          exact absurd rfl (h.inode_ne hx hi hy' hj hne)
        · exact honly' n hn'
  · intro name
    have hread : ((s.place c x i).setCall c (some (x.to .placed))).read (.file name)
        = if name = x.path then some (s.data i) else s.read (.file name) := by
      show (Function.update (Function.update s.dir (.file x.path) (some i)) x.temp none
        (.file name)).map s.data = _
      rw [hafter, if_neg (by simp [Call.temp])]
      by_cases hname : name = x.path
      · simp [hname]
      · rw [if_neg (by simp [hname]), if_neg hname]
        rfl
    have hlast : ((s.place c x i).setCall c (some (x.to .placed))).last name
        = if name = x.path then some (s.data i) else s.last name := by
      show (((s.renamed ++ [(c, x.path, s.data i)]).filter fun e => e.2.1 = name).getLast?).map
        (fun e => e.2.2) = _
      rw [List.filter_append]
      by_cases hname : name = x.path
      · simp [hname]
      · simp [State.last, hname, Ne.symm hname]
    rw [hread, hlast]
    split_ifs with hname
    · rfl
    · exact h.reads name
  · intro e he
    rcases List.mem_append.mp he with he | he
    · exact h.renamed e he
    · rw [List.mem_singleton] at he
      rw [he]
      exact ⟨x.parts, h.begun c x hx, hcontent⟩
  · intro c' y hy
    show c' ∈ (s.renamed ++ [(c, x.path, s.data i)]).map Prod.fst ↔ _
    rw [List.map_append, List.mem_append]
    rcases calls_cases hy with ⟨rfl, rfl⟩ | ⟨hne, hy'⟩
    · simp [Call.to]
    · rw [← h.settled c' y hy']
      simp [hne]

theorem Inv.begin (h : Inv s₀ s) (pid : Nat) (path : String) (parts : List Bytes) :
    Inv s₀ ({ s with seqs := Function.update s.seqs pid (s.seqs pid + 1)
                     begun := s.begun ++ [(path, parts)] }.setCall s.begun.length
      (some ⟨path, parts, pid, s.seqs pid, .opening⟩)) where
  seqs c' y hy := by
    show y.seq < Function.update s.seqs pid (s.seqs pid + 1) y.pid
    rw [Function.update_apply]
    rcases calls_cases hy with ⟨rfl, rfl⟩ | ⟨-, hy'⟩
    · rw [if_pos rfl]
      exact Nat.lt_succ_self _
    · have hlt := h.seqs c' y hy'
      split_ifs with hpid
      · rw [hpid] at hlt
        exact Nat.lt_succ_of_lt hlt
      · exact hlt
  apart c₁ c₂ y₁ y₂ hy₁ hy₂ hpid hseq := by
    -- an earlier call of the process has a smaller number
    rcases calls_cases hy₁ with ⟨rfl, rfl⟩ | ⟨hne₁, hy₁'⟩
    · rcases calls_cases hy₂ with ⟨rfl, rfl⟩ | ⟨hne₂, hy₂'⟩
      · rfl
      · have hlt := h.seqs c₂ y₂ hy₂'
        rw [← hpid, ← hseq] at hlt
        exact absurd hlt (Nat.lt_irrefl _)
    · rcases calls_cases hy₂ with ⟨rfl, rfl⟩ | ⟨hne₂, hy₂'⟩
      · have hlt := h.seqs c₁ y₁ hy₁'
        rw [hpid, hseq] at hlt
        exact absurd hlt (Nat.lt_irrefl _)
      · exact h.apart c₁ c₂ y₁ y₂ hy₁' hy₂' hpid hseq
  begun c' y hy := by
    show (s.begun ++ [(path, parts)])[c']? = some (y.path, y.parts)
    rcases calls_cases hy with ⟨rfl, rfl⟩ | ⟨-, hy'⟩
    · simp
    · have hold := h.begun c' y hy'
      obtain ⟨hlt, -⟩ := List.getElem?_eq_some_iff.mp hold
      rw [List.getElem?_append_left hlt]
      exact hold
  fresh := h.fresh
  whole c' y i hy hi := by
    rcases calls_cases hy with ⟨rfl, rfl⟩ | ⟨-, hy'⟩
    · cases hi
    · exact h.whole c' y i hy' hi
  reads := h.reads
  renamed e he := by
    obtain ⟨ps, hold, hcontent⟩ := h.renamed e he
    obtain ⟨hlt, -⟩ := List.getElem?_eq_some_iff.mp hold
    refine ⟨ps, ?_, hcontent⟩
    show (s.begun ++ [(path, parts)])[e.1]? = _
    rw [List.getElem?_append_left hlt]
    exact hold
  settled c' y hy := by
    rcases calls_cases hy with ⟨rfl, rfl⟩ | ⟨-, hy'⟩
    · -- the number is new
      have hnew : s.begun.length ∉ s.renamed.map Prod.fst := by
        intro hmem
        obtain ⟨e, he, heq⟩ := List.mem_map.mp hmem
        obtain ⟨ps, hold, -⟩ := h.renamed e he
        obtain ⟨hlt, -⟩ := List.getElem?_eq_some_iff.mp hold
        rw [heq] at hlt
        exact Nat.lt_irrefl _ hlt
      show s.begun.length ∈ s.renamed.map Prod.fst ↔ Phase.opening = Phase.placed
      simp [hnew]
    · exact h.settled c' y hy'

end keeps

/-! ## Steps and runs -/

theorem Inv.proceed {s₀ s t : State} {c : Nat} {x : Call} (h : Inv s₀ s) (hx : s.calls c = some x)
    (hstep : proceed s c x = some t) : Inv s₀ t := by
  unfold Replace.proceed at hstep
  match hphase : x.phase with
  | .opening =>
    simp only [hphase] at hstep
    cases hdir : s.dir x.temp with
    | some j =>
      rw [hdir] at hstep
      cases hstep
      exact h.advance hx (by simp [Phase.inode]) (by simp [hphase])
    | none =>
      rw [hdir] at hstep
      cases hstep
      exact h.create hx hphase
  | .writing i [] =>
    simp only [hphase] at hstep
    cases hstep
    refine h.advance hx ?_ (by simp [hphase])
    intro j hj
    rw [hphase]
    exact ⟨hj, rfl⟩
  | .writing i (p :: ps) =>
    simp only [hphase] at hstep
    split_ifs at hstep with hempty
    cases hstep
    refine h.advance hx ?_ (by simp [hphase])
    intro j hj
    rw [hphase]
    rw [List.isEmpty_iff] at hempty
    exact ⟨hj, by simp [Phase.rest, hempty]⟩
  | .syncing i =>
    simp only [hphase] at hstep
    cases hstep
    refine h.advance hx ?_ (by simp [hphase])
    intro j hj
    rw [hphase]
    exact ⟨hj, rfl⟩
  | .moving i =>
    simp only [hphase] at hstep
    cases hstep
    exact h.place hx hphase
  | .cleaning =>
    simp only [hphase] at hstep
    cases hstep
    -- what is removed is its own temporary, or one of the dead
    refine (h.unlink (by simp [Call.temp]) ?_).drop
    intro c' y i hy hi
    apply h.toKnown.temp_ne hx hy
    intro heq
    rw [heq, hx] at hy
    cases hy
    rw [hphase] at hi
    cases hi
  | .placed =>
    simp only [hphase] at hstep
    cases hstep
    exact h.drop

theorem Inv.step {s₀ s t : State} {a : Act} (h : Inv s₀ s) (hstep : step s a = some t) :
    Inv s₀ t := by
  cases a with
  | begin pid path parts =>
    cases hstep
    exact h.begin pid path parts
  | proceed c =>
    obtain ⟨x, hx, hstep⟩ := Option.bind_eq_some_iff.mp hstep
    exact h.proceed hx hstep
  | write c n =>
    simp only [Replace.step] at hstep
    split at hstep
    next x hx =>
      split at hstep
      next i p ps hphase =>
        split_ifs at hstep
        cases hstep
        exact h.write hx hphase
      next => cases hstep
    next => cases hstep
  | fail c =>
    simp only [Replace.step] at hstep
    split at hstep
    next x hx =>
      match hphase : x.phase with
      | .opening | .writing _ _ | .syncing _ | .moving _ =>
        simp only [hphase] at hstep
        cases hstep
        exact h.advance hx (by simp [Phase.inode]) (by simp [hphase])
      | .cleaning | .placed =>
        simp only [hphase] at hstep
        cases hstep
    next => cases hstep
  | leave c =>
    simp only [Replace.step] at hstep
    split at hstep
    next x hx =>
      split_ifs at hstep
      cases hstep
      exact h.drop
    next => cases hstep
  | crash pid =>
    cases hstep
    refine h.restrict ?_
    intro c' y hy
    obtain ⟨hy', hpid⟩ := Option.filter_eq_some_iff.mp hy
    refine ⟨hy', ?_⟩
    rw [Function.update_of_ne (by simpa using hpid)]

theorem Inv.run {s₀ s t : State} {cond : State → Act → Prop} {as : List Act} (h : Inv s₀ s)
    (hrun : Run Replace.step cond s as t) : Inv s₀ t :=
  hrun.invariant h fun _ _ _ hs _ hstep => hs.step hstep

/-- Whatever calls run at once, fail or die, a file reads as it did at the start or
    as all the parts of the call renamed over it last; a call is renamed before it
    returns `Ok`, and never when it returns an error. -/
theorem replaces_whole {s₀ t : State} {as : List Act} (hstart : Start s₀)
    (hrun : Run step (fun _ _ => True) s₀ as t) :
    (∀ name, t.read (.file name) = (t.last name).or (s₀.read (.file name))) ∧
      (∀ e ∈ t.renamed, ∃ parts, t.begun[e.1]? = some (e.2.1, parts) ∧ e.2.2 = parts.flatten) ∧
      ∀ c x, t.calls c = some x →
        (x.phase = .placed → (c, x.path, x.parts.flatten) ∈ t.renamed) ∧
        (x.phase ≠ .placed → c ∉ t.renamed.map Prod.fst) := by
  have h := hstart.inv.run hrun
  refine ⟨h.reads, h.renamed, ?_⟩
  intro c x hx
  constructor
  · intro hphase
    obtain ⟨⟨c', path, content⟩, he, rfl⟩ := List.mem_map.mp ((h.settled c x hx).mpr hphase)
    obtain ⟨parts, hbegun, hcontent⟩ := h.renamed _ he
    have hsame := (h.begun c' x hx).symm.trans hbegun
    simp only [Option.some.injEq, Prod.mk.injEq] at hsame
    simp only at hcontent
    rw [hsame.1, hsame.2, ← hcontent]
    exact he
  · intro hphase hmem
    exact hphase ((h.settled c x hx).mp hmem)

/-- A directory with one file and a temporary of a dead process 7. -/
def oneLeft : State where
  dir := fun n =>
    if n = .file "graph.base" then some 0 else if n = .temp "graph.base" 7 0 then some 1 else none
  data := fun i => if i = 0 then [1] else []
  fresh := 2
  seqs := fun _ => 0
  calls := fun _ => none
  begun := []
  renamed := []

theorem start_oneLeft : Start oneLeft where
  fresh n i hi := by
    simp only [oneLeft] at hi ⊢
    split_ifs at hi <;> cases hi <;> decide
  calls _ := rfl
  begun := rfl
  renamed := rfl

/-- Process 7 is back and meets its leftover; process 8 writes two parts, in three
    writes; process 7 tries again. -/
def twoWrite : List Act :=
  [.begin 7 "graph.base" [[9]], .proceed 0, .begin 8 "graph.base" [[2, 3], [4]], .proceed 1,
    .write 1 1, .proceed 0, .write 1 1, .proceed 1, .begin 7 "graph.base" [[5]], .proceed 2,
    .write 1 1, .proceed 1, .proceed 1, .proceed 1, .proceed 1, .write 2 1, .proceed 2]

theorem run_of_some {s t : State} {as : List Act} (h : RunLib.run step s as = some t) :
    Run step (fun _ _ => True) s as t :=
  @Run.of_checkedRun _ _ step _ (fun _ _ => true) (fun _ _ _ => trivial) s t as h

theorem replaces_whole_twoWrite : ∃ t, RunLib.run step oneLeft twoWrite = some t ∧
    (1, "graph.base", [2, 3, 4]) ∈ t.renamed ∧
    t.read (.file "graph.base") = (t.last "graph.base").or (oneLeft.read (.file "graph.base")) ∧
    t.read (.file "graph.base") = some [2, 3, 4] := by
  have hrun : RunLib.run step oneLeft twoWrite = some _ := rfl
  obtain ⟨hreads, -, hcalls⟩ := replaces_whole start_oneLeft (run_of_some hrun)
  exact ⟨_, hrun, (hcalls 1 _ rfl).1 rfl, hreads _, rfl⟩

/-! ## Other calls -/

/-- The call a step is of. -/
def Act.call : Act → Option Nat
  | .proceed c | .write c _ | .fail c | .leave c => some c
  | .begin .. | .crash _ => none

theorem calls_of_step {s₀ s t : State} {a : Act} {c : Nat} {x : Call} (h : Inv s₀ s)
    (hx : s.calls c = some x) (hcall : a.call ≠ some c) (hcrash : a ≠ .crash x.pid)
    (hstep : step s a = some t) : t.calls c = some x := by
  have hkeep : ∀ {u : State} {c' : Nat} {y : Option Call}, some c' ≠ some c → u.calls = s.calls →
      (u.setCall c' y).calls c = some x := by
    intro u c' y hne hu
    rw [State.calls_setCall, if_neg (fun heq => hne (congrArg some heq.symm)), hu]
    exact hx
  cases a with
  | begin pid path parts =>
    cases hstep
    apply hkeep _ rfl
    intro heq
    -- the new call has a new number
    have hbegun := h.begun c x hx
    rw [← Option.some.inj heq] at hbegun
    simp at hbegun
  | proceed c' =>
    obtain ⟨y, hy, hstep⟩ := Option.bind_eq_some_iff.mp hstep
    unfold proceed at hstep
    split at hstep
    case h_1 =>
      split at hstep <;> cases hstep <;> exact hkeep hcall rfl
    case h_3 =>
      split_ifs at hstep
      cases hstep
      exact hkeep hcall rfl
    all_goals
      cases hstep
      exact hkeep hcall rfl
  | write c' n =>
    simp only [step] at hstep
    split at hstep
    · split at hstep
      · split_ifs at hstep
        cases hstep
        exact hkeep hcall rfl
      · cases hstep
    · cases hstep
  | fail c' =>
    simp only [step] at hstep
    split at hstep
    · split at hstep
      case h_5 => cases hstep
      all_goals
        cases hstep
        exact hkeep hcall rfl
    · cases hstep
  | leave c' =>
    simp only [step] at hstep
    split at hstep
    · split_ifs at hstep
      cases hstep
      exact hkeep hcall rfl
    · cases hstep
  | crash pid =>
    cases hstep
    refine Option.filter_eq_some_iff.mpr ⟨hx, ?_⟩
    simp only [ne_eq, decide_eq_true_eq]
    intro heq
    exact hcrash (by rw [heq])

/-- What a call has written stays where it is until the call goes on or its process
    dies: no other call writes to its temporary, replaces it or removes it. -/
theorem temporary_kept {s₀ s t : State} {as : List Act} {a : Act} {c i : Nat} {x : Call}
    (hstart : Start s₀) (hrun : Run step (fun _ _ => True) s₀ as s) (hx : s.calls c = some x)
    (hopen : x.phase.inode = some i) (hcall : a.call ≠ some c) (hcrash : a ≠ .crash x.pid)
    (hstep : step s a = some t) :
    t.calls c = some x ∧ t.read x.temp = s.read x.temp ∧
      t.read x.temp = some (t.data i) ∧ t.data i ++ x.phase.rest.flatten = x.parts.flatten := by
  have hs := hstart.inv.run hrun
  have hx' := calls_of_step hs hx hcall hcrash hstep
  obtain ⟨hdir, -, hwhole⟩ := hs.whole c x i hx hopen
  obtain ⟨hdir', -, hwhole'⟩ := (hs.step hstep).whole c x i hx' hopen
  have hdata : t.data i = s.data i := List.append_cancel_right (hwhole'.trans hwhole.symm)
  refine ⟨hx', ?_, ?_, hwhole'⟩
  · rw [State.read, State.read, hdir, hdir', Option.map_some, Option.map_some, hdata]
  · rw [State.read, hdir', Option.map_some]

/-- Process 7 removes the leftover while process 8 writes. -/
theorem temporary_kept_twoWrite : ∃ s t, RunLib.run step oneLeft (twoWrite.take 5) = some s ∧
    step s (.proceed 0) = some t ∧ t.dir (.temp "graph.base" 7 0) = none ∧
    t.read (.temp "graph.base" 8 0) = s.read (.temp "graph.base" 8 0) ∧
    t.read (.temp "graph.base" 8 0) = some [2] := by
  have hrun : RunLib.run step oneLeft (twoWrite.take 5) = some _ := rfl
  have hkept := @temporary_kept _ _ _ _ (.proceed 0) 1 2
    ⟨"graph.base", [[2, 3], [4]], 8, 0, .writing 2 [[3], [4]]⟩ start_oneLeft (run_of_some hrun) rfl
    rfl (by decide) (by decide) rfl
  exact ⟨_, _, hrun, rfl, rfl, hkept.2.1, rfl⟩

/-! ## Leftovers -/

/-- A step that removes what is to be removed, and in which nobody dies. -/
def Tidy : State → Act → Prop
  | _, .leave _ | _, .crash _ => False
  | _, _ => True

/-- A temporary there now was there at the start, or is that of a call that has
    yet to rename or remove it. -/
def Accounted (s₀ s : State) : Prop :=
  ∀ path pid seq, s.dir (.temp path pid seq) ≠ none → s₀.dir (.temp path pid seq) ≠ none ∨
    ∃ c x, s.calls c = some x ∧ x.temp = .temp path pid seq ∧ x.phase ≠ .placed

/-- Where no temporary appears, and each that stays has its call. -/
theorem Accounted.mono {s₀ s t : State} (h : Accounted s₀ s)
    (hkeep : ∀ path pid seq, t.dir (.temp path pid seq) ≠ none → s.dir (.temp path pid seq) ≠ none ∧
      ∀ c x, s.calls c = some x → x.temp = .temp path pid seq → x.phase ≠ .placed →
        ∃ y, t.calls c = some y ∧ y.temp = x.temp ∧ y.phase ≠ .placed) : Accounted s₀ t := by
  intro path pid seq hdir
  obtain ⟨hold, hcalls⟩ := hkeep path pid seq hdir
  rcases h path pid seq hold with hstart | ⟨c, x, hx, htemp, hphase⟩
  · exact .inl hstart
  · obtain ⟨y, hy, hsame, hphase'⟩ := hcalls c x hx htemp hphase
    exact .inr ⟨c, y, hy, hsame.trans htemp, hphase'⟩

/-- A call goes on, its temporary still to be dealt with. -/
theorem Accounted.advance {s₀ s : State} (h : Accounted s₀ s) {c : Nat} {x : Call}
    (hx : s.calls c = some x) {phase : Phase} (hphase : phase ≠ .placed) (data : Nat → Bytes) :
    Accounted s₀ ({ s with data }.setCall c (some (x.to phase))) := by
  apply h.mono
  intro path pid seq hdir
  refine ⟨hdir, ?_⟩
  intro c' y hy htemp hyphase
  rw [State.calls_setCall]
  by_cases hc : c' = c
  · rw [if_pos hc]
    rw [hc, hx] at hy
    cases hy
    exact ⟨_, rfl, rfl, hphase⟩
  · rw [if_neg hc]
    exact ⟨y, hy, rfl, hyphase⟩

/-- A call's own temporary is gone, and the call is done with it. -/
theorem Accounted.unlink {s₀ s u : State} (h : Accounted s₀ s) {c : Nat} {x : Call} {v : Option Call}
    (hx : s.calls c = some x) (hcalls : u.calls = s.calls)
    (hdir : ∀ path pid seq, u.dir (.temp path pid seq) = s.dir (.temp path pid seq)) :
    Accounted s₀ ((u.link x.temp none).setCall c v) := by
  apply h.mono
  intro path pid seq hsome
  have hsome' : (u.link x.temp none).dir (.temp path pid seq) ≠ none := hsome
  rw [State.dir_link] at hsome'
  split_ifs at hsome' with hname
  · exact absurd rfl hsome'
  · refine ⟨by rw [← hdir]; exact hsome', ?_⟩
    intro c' y hy htemp hyphase
    rw [State.calls_setCall]
    by_cases hc : c' = c
    · rw [hc, hx] at hy
      cases hy
      exact absurd htemp.symm hname
    · rw [if_neg hc]
      exact ⟨y, by rw [← hy]; exact congrFun hcalls c', rfl, hyphase⟩

theorem accounted_proceed {s₀ s t : State} {c : Nat} {x : Call} (h : Accounted s₀ s)
    (hx : s.calls c = some x) (hstep : proceed s c x = some t) : Accounted s₀ t := by
  unfold proceed at hstep
  match hphase : x.phase with
  | .opening =>
    simp only [hphase] at hstep
    cases hdir : s.dir x.temp with
    | some j =>
      rw [hdir] at hstep
      cases hstep
      exact h.advance hx (by simp) s.data
    | none =>
      rw [hdir] at hstep
      cases hstep
      intro path pid seq hsome
      have hsome' : Function.update s.dir x.temp (some s.fresh) (.temp path pid seq) ≠ none := hsome
      rw [Function.update_apply] at hsome'
      split_ifs at hsome' with hname
      · refine .inr ⟨c, x.to (.writing s.fresh x.parts), ?_, hname.symm, by simp [Call.to]⟩
        rw [State.calls_setCall, if_pos rfl]
      · rcases h path pid seq hsome' with hstart | ⟨c', y, hy, htemp, hyphase⟩
        · exact .inl hstart
        · refine .inr ⟨c', y, ?_, htemp, hyphase⟩
          rw [State.calls_setCall, if_neg]
          · exact hy
          · intro hc
            rw [hc, hx] at hy
            cases hy
            exact hname htemp.symm
  | .writing i [] =>
    simp only [hphase] at hstep
    cases hstep
    exact h.advance hx (by simp) s.data
  | .writing i (p :: ps) =>
    simp only [hphase] at hstep
    split_ifs at hstep
    cases hstep
    exact h.advance hx (by simp) s.data
  | .syncing i =>
    simp only [hphase] at hstep
    cases hstep
    exact h.advance hx (by simp) s.data
  | .moving i =>
    simp only [hphase] at hstep
    cases hstep
    exact h.unlink hx rfl fun _ _ _ => rfl
  | .cleaning =>
    simp only [hphase] at hstep
    cases hstep
    exact h.unlink hx rfl fun _ _ _ => rfl
  | .placed =>
    simp only [hphase] at hstep
    cases hstep
    apply h.mono
    intro path pid seq hdir
    refine ⟨hdir, ?_⟩
    intro c' y hy htemp hyphase
    rw [State.calls_setCall, if_neg]
    · exact ⟨y, hy, rfl, hyphase⟩
    · intro hc
      rw [hc, hx] at hy
      cases hy
      exact hyphase hphase

theorem accounted_step {s₀ s t : State} {a : Act} (h : Accounted s₀ s) (hinv : Inv s₀ s)
    (htidy : Tidy s a) (hstep : step s a = some t) : Accounted s₀ t := by
  cases a with
  | begin pid path parts =>
    cases hstep
    apply h.mono
    intro path' pid' seq' hdir
    refine ⟨hdir, ?_⟩
    intro c y hy htemp hyphase
    rw [State.calls_setCall, if_neg]
    · exact ⟨y, hy, rfl, hyphase⟩
    · intro hc
      have hbegun := hinv.begun c y hy
      rw [hc] at hbegun
      simp at hbegun
  | proceed c =>
    obtain ⟨x, hx, hstep⟩ := Option.bind_eq_some_iff.mp hstep
    exact accounted_proceed h hx hstep
  | write c n =>
    simp only [step] at hstep
    split at hstep
    next x hx =>
      split at hstep
      · split_ifs at hstep
        cases hstep
        exact h.advance hx (by simp) _
      · cases hstep
    next => cases hstep
  | fail c =>
    simp only [step] at hstep
    split at hstep
    next x hx =>
      split at hstep
      case h_5 => cases hstep
      all_goals
        cases hstep
        exact h.advance hx (by simp) s.data
    next => cases hstep
  | leave c => exact htidy.elim
  | crash pid => exact htidy.elim

/-- Nobody dying and every removal working, a call that has returned has left no
    temporary. -/
theorem no_leftovers {s₀ t : State} {as : List Act} (hstart : Start s₀)
    (hrun : Run step Tidy s₀ as t) (hdone : ∀ c, t.calls c = none) :
    ∀ path pid seq, t.dir (.temp path pid seq) ≠ none → s₀.dir (.temp path pid seq) ≠ none := by
  have h : Inv s₀ t ∧ Accounted s₀ t := by
    apply @Run.invariant _ _ _ _ (fun u => Inv s₀ u ∧ Accounted s₀ u) _ _ _ hrun
    · exact ⟨hstart.inv, fun path pid seq hdir => .inl hdir⟩
    · intro u a v hu htidy hstep
      exact ⟨hu.1.step hstep, accounted_step hu.2 hu.1 htidy hstep⟩
  intro path pid seq hdir
  rcases h.2 path pid seq hdir with hold | ⟨c, x, hx, -, -⟩
  · exact hold
  · rw [hdone c] at hx
    cases hx

/-- A call that begins has a number of its own. -/
theorem Known.none_of_le {s : State} (h : Known s) {c : Nat} (hc : s.begun.length ≤ c) :
    s.calls c = none := by
  cases hx : s.calls c with
  | none => rfl
  | some x =>
    obtain ⟨hlt, -⟩ := List.getElem?_eq_some_iff.mp (h.begun c x hx)
    exact absurd hlt (Nat.not_lt.mpr hc)

/-- Process 8 replaces the file; the temporary of the dead stays. -/
def oneWrite : List Act :=
  [.begin 8 "graph.base" [[2]], .proceed 0, .write 0 1, .proceed 0, .proceed 0, .proceed 0,
    .proceed 0, .proceed 0]

theorem no_leftovers_oneWrite : ∃ t, RunLib.run step oneLeft oneWrite = some t ∧
    t.read (.file "graph.base") = some [2] ∧ t.dir (.temp "graph.base" 8 0) = none := by
  have hrun : Run step Tidy oneLeft oneWrite _ :=
    @Run.of_checkedRun _ _ step _ (fun _ a => a matches .begin .. | .proceed _ | .write ..)
      (fun s a h => by cases a <;> trivial) oneLeft _ oneWrite rfl
  refine ⟨_, hrun.run_eq, rfl, ?_⟩
  by_contra hsome
  refine no_leftovers start_oneLeft hrun ?_ "graph.base" 8 0 hsome rfl
  intro c
  cases c with
  | zero => rfl
  | succ c =>
    exact (start_oneLeft.inv.run hrun).toKnown.none_of_le (Nat.succ_le_succ (Nat.zero_le c))

end GraphR.Multi.Replace
