import Quorvec.Cluster.Meta

/-!
# Membership operations

A node joins in four steps: its address is committed, it catches up as a
learner, the current voters are read, and a voter set that includes it is
submitted.  A node leaves in three: the voters are read, the set without it is
submitted, and its address is removed.  A submitted set replaces the voters as
a whole.

Calls interleave between their steps.  Each has its effect when no other call
changes the voters between its read and its change; otherwise the other change
is undone.  A join writes the directory before it changes the voters, and a
leave after; so a join and a leave of one node that overlap can take effect in
one order on the voters, and in the other on the directory.
-/

namespace Quorvec

inductive MemberOp
  | join (node : NodeId) (advertiseAddr : String)
  | leave (node : NodeId)
deriving DecidableEq

namespace MemberOp

/-- The node that joins or leaves. -/
def node : MemberOp → NodeId
  | join node _ => node
  | leave node => node

def joins : MemberOp → Bool
  | join .. => true
  | leave _ => false

/-- The voter set that the operation submits. -/
def change (voters : Finset NodeId) : MemberOp → Finset NodeId
  | join node _ => insert node voters
  | leave node => voters.erase node

/-- The directory request that the operation commits. -/
def request : MemberOp → MetaRequest
  | join node advertiseAddr => .registerNode node advertiseAddr
  | leave node => .deregisterNode node

/-- What the operation does to the metadata. -/
def write (metadata : MetaState) (op : MemberOp) : MetaState :=
  (metadata.apply op.request).1

end MemberOp

/-- How far a call has come. -/
inductive Phase
  | started
  | registered
  | caughtUp
  | submitted (voters : Finset NodeId)
  | changed
  | returned
deriving DecidableEq

/-- A call that runs on the leader; `failed` if it has returned an error. -/
structure MemberCall where
  op : MemberOp
  phase : Phase
  failed : Bool
deriving DecidableEq

/-- What a step of a call does to the cluster. -/
inductive MemberEffect
  | silent
  /-- The directory request is committed. -/
  | write
  /-- The voter set is replaced. -/
  | replace (voters : Finset NodeId)

namespace MemberCall

/-- The next step of a call, when these are the voters. -/
def advance (voters : Finset NodeId) (c : MemberCall) :
    Option (MemberCall × MemberEffect) :=
  if c.failed then none
  else
    match c.op, c.phase with
    | .join .., .started => some ({ c with phase := .registered }, .write)
    | .join .., .registered => some ({ c with phase := .caughtUp }, .silent)
    | .join node _, .caughtUp =>
        some ({ c with phase := .submitted (insert node voters) }, .silent)
    | .join .., .submitted submitted =>
        some ({ c with phase := .returned }, .replace submitted)
    | .leave node, .started =>
        -- not a voter, or the last one
        if node ∉ voters ∨ voters.erase node = ∅ then
          some ({ c with failed := true }, .silent)
        else
          some ({ c with phase := .submitted (voters.erase node) }, .silent)
    | .leave _, .submitted submitted =>
        some ({ c with phase := .changed }, .replace submitted)
    | .leave _, .changed => some ({ c with phase := .returned }, .write)
    | _, _ => none

/-- Whether the call has committed its directory request. -/
def wrote (c : MemberCall) : Bool :=
  match c.op, c.phase with
  | .join .., .started => false
  | .join .., _ => true
  | .leave _, .returned => true
  | .leave _, _ => false

/-- Whether the call has replaced the voters. -/
def replaced (c : MemberCall) : Bool :=
  c.phase = .changed || c.phase = .returned

/-- Whether the call has had one of its two effects only. -/
def halfDone (c : MemberCall) : Bool := c.wrote != c.replaced

end MemberCall

/-- The leader's view of the cluster. -/
structure Cluster where
  voters : Finset NodeId
  metadata : MetaState
  calls : List MemberCall
  /-- The operations in the order in which they replaced the voters. -/
  changes : List MemberOp
  /-- The operations in the order in which they changed the directory. -/
  writes : List MemberOp

inductive ClusterStep
  | start (op : MemberOp)
  | advance (call : ℕ)
  /-- A step of a call fails. -/
  | fail (call : ℕ)

namespace Cluster

def initial (voters : Finset NodeId) (metadata : MetaState) : Cluster :=
  { voters, metadata, calls := [], changes := [], writes := [] }

/-- A call has made a step. -/
def advanced (s : Cluster) (i : ℕ) (c : MemberCall) :
    MemberEffect → Cluster
  | .silent => { s with calls := s.calls.set i c }
  | .write =>
      { s with
        calls := s.calls.set i c
        metadata := c.op.write s.metadata
        writes := s.writes ++ [c.op] }
  | .replace voters =>
      { s with
        calls := s.calls.set i c
        voters
        changes := s.changes ++ [c.op] }

def step (s : Cluster) : ClusterStep → Option Cluster
  | .start op =>
      some { s with
        calls := s.calls ++ [{ op, phase := .started, failed := false }] }
  | .advance i => do
      let c ← s.calls[i]?
      let (c, effect) ← c.advance s.voters
      return s.advanced i c effect
  | .fail i => do
      let c ← s.calls[i]?
      if c.phase = .returned then none
      else some { s with calls := s.calls.set i { c with failed := true } }

/-- The runs whose steps are all admitted. -/
inductive Run (Admits : Cluster → ClusterStep → Prop) (s₀ : Cluster) :
    Cluster → Prop
  | refl : Run Admits s₀ s₀
  | step {s s' : Cluster} (e : ClusterStep) : Run Admits s₀ s →
      Admits s e → s.step e = some s' → Run Admits s₀ s'

def Joined (s : Cluster) (node : NodeId) : Prop :=
  ∃ c ∈ s.calls, ∃ addr, c.op = .join node addr

def Left (s : Cluster) (node : NodeId) : Prop :=
  ∃ c ∈ s.calls, c.op = .leave node

/-- The voters and the directory are what the operations of the calls make of
the initial ones in one order; so a node that did not both join and leave is in
them as it was before, plus if it joined, minus if it left. -/
structure Composed (s₀ s : Cluster) : Prop where
  order : ∃ ops : List MemberOp, ops.Perm (s.calls.map MemberCall.op) ∧
    s.voters = ops.foldl MemberOp.change s₀.voters ∧
    s.metadata = ops.foldl MemberOp.write s₀.metadata
  voters_iff : ∀ node, ¬(s.Joined node ∧ s.Left node) →
    (node ∈ s.voters ↔ (node ∈ s₀.voters ∨ s.Joined node) ∧ ¬s.Left node)
  directory_iff : ∀ node, ¬(s.Joined node ∧ s.Left node) →
    (node ∈ s.metadata.nodes ↔
      (node ∈ s₀.metadata.nodes ∨ s.Joined node) ∧ ¬s.Left node)

/-- In every admitted run from a state without calls, once all calls have
returned, their operations have composed. -/
def Composes (Admits : Cluster → ClusterStep → Prop) : Prop :=
  ∀ voters metadata s, Run Admits (initial voters metadata) s →
    (∀ c ∈ s.calls, c.phase = .returned) →
    Composed (initial voters metadata) s

/-- A voter set that replaces the voters was computed from the voters that it
replaces. -/
def UpToDate (s : Cluster) : ClusterStep → Prop
  | .advance i => ∀ c, s.calls[i]? = some c → ∀ voters,
      c.phase = .submitted voters → voters = c.op.change s.voters
  | _ => True

/-- A call has the first of its effects while no call of the other kind for its
node is between its two. -/
def Apart (s : Cluster) : ClusterStep → Prop
  | .advance i => ∀ c c' effect, s.calls[i]? = some c →
      c.advance s.voters = some (c', effect) →
      c.halfDone = false → c'.halfDone = true →
      ∀ other ∈ s.calls, other.op.node = c.op.node →
        other.op.joins ≠ c.op.joins → other.halfDone = false
  | _ => True

end Cluster

/-! ## Composing operations -/

section Compose

variable {σ : Type} {f : σ → MemberOp → σ} {Mem : σ → Prop} {node : NodeId}

/-- A node is added when it joins and removed when it leaves. -/
def Tracks (f : σ → MemberOp → σ) (Mem : σ → Prop) (node : NodeId) : Prop :=
  (∀ s n addr, Mem (f s (.join n addr)) ↔ node = n ∨ Mem s) ∧
    ∀ s n, Mem (f s (.leave n)) ↔ node ≠ n ∧ Mem s

/-- A node that does not leave is there if it was, or if it joins. -/
theorem Tracks.foldl_of_not_left (h : Tracks f Mem node)
    {ops : List MemberOp} (hleft : MemberOp.leave node ∉ ops) (s : σ) :
    Mem (ops.foldl f s) ↔ Mem s ∨ ∃ addr, MemberOp.join node addr ∈ ops := by
  induction ops generalizing s with
  | nil => simp
  | cons op ops ih =>
      obtain ⟨hop, hops⟩ := not_or.mp (mt List.mem_cons.mpr hleft)
      rw [List.foldl_cons, ih hops]
      rcases op with ⟨n, addr⟩ | n
      · rw [h.1]
        simp only [List.mem_cons, MemberOp.join.injEq]
        constructor
        · rintro ((rfl | hmem) | ⟨a, ha⟩)
          · exact .inr ⟨addr, .inl ⟨rfl, rfl⟩⟩
          · exact .inl hmem
          · exact .inr ⟨a, .inr ha⟩
        · rintro (hmem | ⟨a, ⟨rfl, -⟩ | ha⟩)
          · exact .inl (.inr hmem)
          · exact .inl (.inl rfl)
          · exact .inr ⟨a, ha⟩
      · have hne : node ≠ n := fun heq => hop (heq ▸ rfl)
        simp [h.2, hne]

/-- A node that does not join is there if it was, unless it leaves. -/
theorem Tracks.foldl_of_not_joined (h : Tracks f Mem node)
    {ops : List MemberOp} (hjoined : ∀ addr, MemberOp.join node addr ∉ ops)
    (s : σ) :
    Mem (ops.foldl f s) ↔ Mem s ∧ MemberOp.leave node ∉ ops := by
  induction ops generalizing s with
  | nil => simp
  | cons op ops ih =>
      have hops := fun addr =>
        (not_or.mp (mt List.mem_cons.mpr (hjoined addr))).2
      rw [List.foldl_cons, ih hops]
      rcases op with ⟨n, addr⟩ | n
      · have hne : node ≠ n := by
          rintro rfl
          exact hjoined addr (List.mem_cons_self ..)
        simp [h.1, hne]
      · rw [h.2]
        simp only [List.mem_cons, MemberOp.leave.injEq]
        tauto

theorem Tracks.foldl_iff (h : Tracks f Mem node) {ops : List MemberOp}
    (hnode : ¬((∃ addr, MemberOp.join node addr ∈ ops) ∧
      MemberOp.leave node ∈ ops)) (s : σ) :
    Mem (ops.foldl f s) ↔ (Mem s ∨ ∃ addr, MemberOp.join node addr ∈ ops) ∧
      MemberOp.leave node ∉ ops := by
  by_cases hleft : MemberOp.leave node ∈ ops
  · have hjoined : ∀ addr, MemberOp.join node addr ∉ ops :=
      fun addr hop => hnode ⟨⟨addr, hop⟩, hleft⟩
    rw [h.foldl_of_not_joined hjoined]
    simp [hleft]
  · rw [h.foldl_of_not_left hleft]
    simp [hleft]

end Compose

theorem MemberOp.tracks_change (node : NodeId) :
    Tracks MemberOp.change (node ∈ ·) node := by
  constructor
  · intro voters n addr
    exact Finset.mem_insert
  · intro voters n
    exact Finset.mem_erase

/-- Whether the last operation on a node was a join. -/
def MemberOp.lastOn (node : NodeId) (ops : List MemberOp) : Option Bool :=
  ops.foldl (fun last op => if op.node = node then some op.joins else last)
    none

theorem MemberOp.lastOn_append (node : NodeId) (ops : List MemberOp)
    (op : MemberOp) : lastOn node (ops ++ [op]) =
      if op.node = node then some op.joins else lastOn node ops := by
  simp [lastOn]

theorem MemberOp.mem_foldl_change {node : NodeId} {ops : List MemberOp}
    {voters : Finset NodeId} : node ∈ ops.foldl change voters ↔
      (lastOn node ops).getD (decide (node ∈ voters)) = true := by
  induction ops using List.reverseRecOn with
  | nil => simp [lastOn]
  | append_singleton ops op ih =>
      rw [lastOn_append, List.foldl_append, List.foldl_cons, List.foldl_nil]
      rcases op with ⟨n, addr⟩ | n
      · by_cases hn : n = node
        · simp [change, MemberOp.node, joins, hn]
        · simp [change, MemberOp.node, hn, Ne.symm hn, ih]
      · by_cases hn : n = node
        · simp [change, MemberOp.node, joins, hn]
        · simp [change, MemberOp.node, hn, Ne.symm hn, ih]

theorem MemberOp.tracks_write (node : NodeId) :
    Tracks MemberOp.write (node ∈ ·.nodes) node := by
  constructor
  · intro metadata n addr
    simp [MemberOp.write, MemberOp.request, MetaState.apply, @eq_comm _ node]
  · intro metadata n
    simp [MemberOp.write, MemberOp.request, MetaState.apply, @eq_comm _ node]

/-! ## Runs -/

/-- Replacing one element of a list. -/
theorem filter_map_set {α β : Type} {l : List α} {i : ℕ} {a b : α}
    (hi : l[i]? = some a) {p : α → Bool} {g : α → β} (hg : g b = g a) :
    (p b = p a → (((l.set i b).filter p).map g).Perm ((l.filter p).map g)) ∧
    (p a = false → p b = true →
      (((l.set i b).filter p).map g).Perm ((l.filter p).map g ++ [g a])) := by
  obtain ⟨hlt, ha⟩ := List.getElem?_eq_some_iff.mp hi
  obtain ⟨before, after, hold, hset⟩ : ∃ before after,
      l = before ++ a :: after ∧ l.set i b = before ++ b :: after := by
    refine ⟨l.take i, l.drop (i + 1), ?_, ?_⟩
    · rw [← ha, List.getElem_cons_drop, List.take_append_drop]
    · exact List.set_eq_take_append_cons_drop.trans (if_pos hlt)
  rw [hset, hold]
  constructor
  · intro hp
    apply List.Perm.of_eq
    simp only [List.filter_append, List.filter_cons, List.map_append, hp]
    split_ifs <;> simp [hg]
  · intro hpa hpb
    simp only [List.filter_append, List.filter_cons, hpa, hpb, if_true,
      Bool.false_eq_true, if_false, List.map_append, List.map_cons, hg]
    refine List.perm_middle.trans ?_
    exact (List.perm_append_singleton _ _).symm

theorem exists_mem_set_iff {α : Type} {l : List α} {i : ℕ} {a b : α}
    (hi : l[i]? = some a) {P : α → Prop} (hP : P b ↔ P a) :
    (∃ x ∈ l.set i b, P x) ↔ ∃ x ∈ l, P x := by
  obtain ⟨hlt, rfl⟩ := List.getElem?_eq_some_iff.mp hi
  constructor
  · rintro ⟨x, hx, hPx⟩
    rcases List.mem_or_eq_of_mem_set hx with hx | rfl
    · exact ⟨x, hx, hPx⟩
    · exact ⟨_, List.getElem_mem hlt, hP.mp hPx⟩
  · rintro ⟨x, hx, hPx⟩
    obtain ⟨j, hj, rfl⟩ := List.getElem_of_mem hx
    by_cases hij : i = j
    · subst hij
      exact ⟨b, List.mem_set hlt b, hP.mpr hPx⟩
    · have hj' : j < (l.set i b).length := by rwa [List.length_set]
      refine ⟨(l.set i b)[j], List.getElem_mem _, ?_⟩
      rwa [List.getElem_set_of_ne hij]

namespace MemberCall

/-- What a step of a call does: a write commits its request for the first time,
and a replacement submits what was computed. -/
theorem advance_cases {voters : Finset NodeId} {c c' : MemberCall}
    {effect : MemberEffect} (h : c.advance voters = some (c', effect)) :
    c'.op = c.op ∧
      match effect with
      | .silent => c'.wrote = c.wrote ∧ c'.replaced = c.replaced
      | .write => c.wrote = false ∧ c'.wrote = true ∧
          c'.replaced = c.replaced ∧ c.replaced = !c.op.joins
      | .replace submitted => c.phase = .submitted submitted ∧
          c'.wrote = c.wrote ∧ c.replaced = false ∧ c'.replaced = true ∧
          c.wrote = c.op.joins := by
  rcases c with ⟨op, phase, failed⟩
  cases failed
  · rcases op with ⟨node, addr⟩ | node <;> rcases phase with _ | _ | _ | _ | _ | _ <;>
      simp only [advance, Bool.false_eq_true, if_false, reduceCtorEq,
        Option.some.injEq, Prod.mk.injEq] at h
    any_goals
      obtain ⟨rfl, rfl⟩ := h
      simp [wrote, replaced, MemberOp.joins]
    split_ifs at h
    all_goals
      simp only [Option.some.injEq, Prod.mk.injEq] at h
      obtain ⟨rfl, rfl⟩ := h
      simp [wrote, replaced]
  · simp [advance] at h

end MemberCall

namespace Cluster

variable {s₀ s s' : Cluster}

/-- The voters and the directory are what the operations made of the initial
ones, in the order in which they had their effect. -/
structure Sound (s₀ s : Cluster) : Prop where
  voters : s.voters = s.changes.foldl MemberOp.change s₀.voters
  metadata : s.metadata = s.writes.foldl MemberOp.write s₀.metadata
  changes : s.changes.Perm
    ((s.calls.filter MemberCall.replaced).map MemberCall.op)
  writes : s.writes.Perm
    ((s.calls.filter MemberCall.wrote).map MemberCall.op)

theorem Sound.advanced (h : Sound s₀ s) {i : ℕ} {c c' : MemberCall}
    {effect : MemberEffect} (hi : s.calls[i]? = some c)
    (hnext : c.advance s.voters = some (c', effect))
    (hsubmitted : ∀ voters, c.phase = .submitted voters →
      voters = c.op.change s.voters) : Sound s₀ (s.advanced i c' effect) := by
  obtain ⟨hop, hcase⟩ := MemberCall.advance_cases hnext
  obtain ⟨hsameW, hgrownW⟩ := filter_map_set (p := MemberCall.wrote) hi hop
  obtain ⟨hsameR, hgrownR⟩ := filter_map_set (p := MemberCall.replaced) hi hop
  rcases effect with _ | _ | submitted
  · obtain ⟨hwrote, hreplaced⟩ := hcase
    constructor
    · exact h.voters
    · exact h.metadata
    · exact h.changes.trans (hsameR hreplaced).symm
    · exact h.writes.trans (hsameW hwrote).symm
  · obtain ⟨hnot, hwrote, hreplaced, -⟩ := hcase
    constructor
    · exact h.voters
    · simp only [Cluster.advanced, List.foldl_append, List.foldl_cons,
        List.foldl_nil]
      rw [← h.metadata]
    · exact h.changes.trans (hsameR hreplaced).symm
    · simp only [Cluster.advanced, hop]
      exact (h.writes.append_right _).trans (hgrownW hnot hwrote).symm
  · obtain ⟨hphase, hwrote, hnot, hreplaced, -⟩ := hcase
    constructor
    · simp only [Cluster.advanced, hop, List.foldl_append, List.foldl_cons,
        List.foldl_nil]
      rw [← h.voters]
      exact hsubmitted submitted hphase
    · exact h.metadata
    · simp only [Cluster.advanced, hop]
      exact (h.changes.append_right _).trans (hgrownR hnot hreplaced).symm
    · exact h.writes.trans (hsameW hwrote).symm

theorem Sound.step (h : Sound s₀ s) {e : ClusterStep} (he : s.UpToDate e)
    (hstep : s.step e = some s') : Sound s₀ s' := by
  rcases e with op | i | i
  · rw [← Option.some.inj hstep]
    have hnew : MemberCall.replaced { op, phase := .started, failed := false } =
        false := rfl
    have hwrote : MemberCall.wrote { op, phase := .started, failed := false } =
        false := by cases op <;> rfl
    constructor
    · exact h.voters
    · exact h.metadata
    · simpa [hnew] using h.changes
    · simpa [hwrote] using h.writes
  · simp only [Cluster.step, Option.bind_eq_bind, Option.bind_eq_some_iff,
      Option.pure_def, Option.some.injEq, Prod.exists] at hstep
    obtain ⟨c, hi, c', effect, hnext, rfl⟩ := hstep
    exact h.advanced hi hnext (he c hi)
  · simp only [Cluster.step, Option.bind_eq_bind, Option.bind_eq_some_iff]
      at hstep
    obtain ⟨c, hi, hstep⟩ := hstep
    split_ifs at hstep
    rw [Option.some.injEq] at hstep
    subst hstep
    have hop : MemberCall.op { c with failed := true } = c.op := rfl
    constructor
    · exact h.voters
    · exact h.metadata
    · exact h.changes.trans ((filter_map_set hi hop).1 rfl).symm
    · exact h.writes.trans ((filter_map_set hi hop).1 rfl).symm

/-- A call of the kind is between its effects on the node. -/
def Half (s : Cluster) (node : NodeId) (joins : Bool) : Prop :=
  ∃ c ∈ s.calls, c.op.node = node ∧ c.op.joins = joins ∧ c.halfDone = true

/-- The last operations on a node that changed the voters and the directory are
of one kind, unless calls of one kind are between their two effects on it. -/
structure Matched (s : Cluster) (node : NodeId) : Prop where
  joining : s.Half node true → MemberOp.lastOn node s.writes = some true
  leaving : s.Half node false → MemberOp.lastOn node s.changes = some false
  one_kind : s.Half node true → ¬s.Half node false
  agree : ¬s.Half node true → ¬s.Half node false →
    MemberOp.lastOn node s.changes = MemberOp.lastOn node s.writes

/-- A step that leaves the calls on the node as far as they are, and the last
operations on it. -/
theorem Matched.same {node : NodeId} (h : s.Matched node)
    (hhalf : ∀ joins, s'.Half node joins ↔ s.Half node joins)
    (hchanges : MemberOp.lastOn node s'.changes =
      MemberOp.lastOn node s.changes)
    (hwrites : MemberOp.lastOn node s'.writes =
      MemberOp.lastOn node s.writes) : s'.Matched node := by
  constructor
  · rw [hhalf, hwrites]
    exact h.joining
  · rw [hhalf, hchanges]
    exact h.leaving
  · rw [hhalf, hhalf]
    exact h.one_kind
  · rw [hhalf, hhalf, hchanges, hwrites]
    exact h.agree

/-- A call on the node gets its first effect. -/
theorem Matched.first {node : NodeId} (joins : Bool)
    (hapart : ¬s.Half node (!joins))
    (hhalf : ∀ kind, s'.Half node kind → kind = joins ∨ s.Half node kind)
    (hself : s'.Half node joins)
    (hwrite : joins = true → MemberOp.lastOn node s'.writes = some true)
    (hchange : joins = false →
      MemberOp.lastOn node s'.changes = some false) : s'.Matched node := by
  have hother : ¬s'.Half node (!joins) := fun hkind =>
    (hhalf _ hkind).elim (by cases joins <;> simp) hapart
  cases joins with
  | true => exact ⟨fun _ => hwrite rfl, fun hleft => absurd hleft hother,
      fun _ => hother, fun hnot => absurd hself hnot⟩
  | false => exact ⟨fun hjoined => absurd hjoined hother, fun _ => hchange rfl,
      fun hjoined => absurd hjoined hother, fun _ hnot => absurd hself hnot⟩

/-- A call on the node gets its second effect. -/
theorem Matched.second {node : NodeId} (h : s.Matched node) (joins : Bool)
    (hself : s.Half node joins)
    (hhalf : ∀ kind, s'.Half node kind → s.Half node kind)
    (hjoins : joins = true → s'.writes = s.writes ∧
      MemberOp.lastOn node s'.changes = some true)
    (hleaves : joins = false → s'.changes = s.changes ∧
      MemberOp.lastOn node s'.writes = some false) : s'.Matched node := by
  cases joins with
  | true =>
      obtain ⟨hwrites, hchange⟩ := hjoins rfl
      refine ⟨fun _ => by rw [hwrites, h.joining hself],
        fun hleft => absurd (hhalf _ hleft) (h.one_kind hself),
        fun _ hleft => h.one_kind hself (hhalf _ hleft), fun _ _ => ?_⟩
      rw [hchange, hwrites, h.joining hself]
  | false =>
      obtain ⟨hchanges, hwrite⟩ := hleaves rfl
      refine ⟨fun hjoined => absurd hself (h.one_kind (hhalf _ hjoined)),
        fun _ => by rw [hchanges, h.leaving hself],
        fun hjoined _ => h.one_kind (hhalf _ hjoined) hself, fun _ _ => ?_⟩
      rw [hwrite, hchanges, h.leaving hself]

theorem half_congr {node : NodeId} {i : ℕ} {c c' : MemberCall}
    (hi : s.calls[i]? = some c) (hop : c'.op = c.op)
    (hcalls : s'.calls = s.calls.set i c')
    (hsame : c.op.node ≠ node ∨ c'.halfDone = c.halfDone) (joins : Bool) :
    s'.Half node joins ↔ s.Half node joins := by
  rw [Half, hcalls]
  refine exists_mem_set_iff hi ?_
  rcases hsame with hne | hsame
  · simp [hop, hne]
  · rw [hop, hsame]

theorem half_of_set {node : NodeId} {i : ℕ} {c' : MemberCall} {joins : Bool}
    (hcalls : s'.calls = s.calls.set i c') (h : s'.Half node joins) :
    (c'.op.joins = joins ∧ c'.halfDone = true) ∨ s.Half node joins := by
  obtain ⟨c, hc, hnode, hjoins, hhalf⟩ := h
  rw [hcalls] at hc
  rcases List.mem_or_eq_of_mem_set hc with hc | rfl
  · exact .inr ⟨c, hc, hnode, hjoins, hhalf⟩
  · exact .inl ⟨hjoins, hhalf⟩

theorem Matched.advanced {node : NodeId} (h : s.Matched node) {i : ℕ}
    {c c' : MemberCall} {effect : MemberEffect} (hi : s.calls[i]? = some c)
    (hnext : c.advance s.voters = some (c', effect))
    (hapart : s.Apart (.advance i)) :
    (s.advanced i c' effect).Matched node := by
  obtain ⟨hop, hcase⟩ := MemberCall.advance_cases hnext
  have hmem : c ∈ s.calls := List.mem_of_getElem? hi
  have hfirst := hapart c c' effect hi hnext
  obtain ⟨hlt, -⟩ := List.getElem?_eq_some_iff.mp hi
  have hin : c' ∈ s.calls.set i c' := List.mem_set hlt c'
  have hnoOther : c.op.node = node → c.halfDone = false →
      c'.halfDone = true → ¬s.Half node (!c.op.joins) := by
    rintro rfl hc hc' ⟨other, hother, hnode, hjoins, hhalf⟩
    rw [hfirst hc hc' other hother hnode (by simp [hjoins])] at hhalf
    simp at hhalf
  rcases effect with _ | _ | submitted
  · obtain ⟨hwrote, hreplaced⟩ := hcase
    refine h.same (half_congr hi hop rfl (.inr ?_)) rfl rfl
    rw [MemberCall.halfDone, MemberCall.halfDone, hwrote, hreplaced]
  · obtain ⟨hnot, hwrote, hreplaced, hbefore⟩ := hcase
    by_cases hnode : c.op.node = node
    · have hlast : MemberOp.lastOn node (s.writes ++ [c'.op]) =
          some c.op.joins := by
        rw [MemberOp.lastOn_append, hop, if_pos hnode]
      cases hjoins : c.op.joins with
      | true =>
          -- a join is half done from here on
          rw [hjoins] at hbefore hlast
          have hc : c.halfDone = false := by
            simp [MemberCall.halfDone, hnot, hbefore]
          have hc' : c'.halfDone = true := by
            simp [MemberCall.halfDone, hwrote, hreplaced, hbefore]
          refine Matched.first (s := s) true ?_ (fun kind hkind => ?_)
            ⟨c', hin, hop ▸ hnode, hop ▸ hjoins, hc'⟩ (fun _ => hlast)
            (by simp)
          · rw [← hjoins]
            exact hnoOther hnode hc hc'
          · refine (half_of_set rfl hkind).imp_left fun hself => ?_
            rw [← hself.1, hop, hjoins]
      | false =>
          rw [hjoins] at hbefore hlast
          have hc : c.halfDone = true := by
            simp [MemberCall.halfDone, hnot, hbefore]
          have hc' : c'.halfDone = false := by
            simp [MemberCall.halfDone, hwrote, hreplaced, hbefore]
          refine h.second false ⟨c, hmem, hnode, hjoins, hc⟩
            (fun kind hkind => ?_) (by simp) fun _ => ⟨rfl, hlast⟩
          exact (half_of_set rfl hkind).resolve_left fun hself => by
            simp [hc'] at hself
    · refine h.same (half_congr hi hop rfl (.inl hnode)) rfl ?_
      exact (MemberOp.lastOn_append ..).trans (if_neg (hop ▸ hnode))
  · obtain ⟨-, hwrote, hnot, hreplaced, hbefore⟩ := hcase
    by_cases hnode : c.op.node = node
    · have hlast : MemberOp.lastOn node (s.changes ++ [c'.op]) =
          some c.op.joins := by
        rw [MemberOp.lastOn_append, hop, if_pos hnode]
      cases hjoins : c.op.joins with
      | true =>
          rw [hjoins] at hbefore hlast
          have hc : c.halfDone = true := by
            simp [MemberCall.halfDone, hnot, hbefore]
          have hc' : c'.halfDone = false := by
            simp [MemberCall.halfDone, hwrote, hreplaced, hbefore]
          refine h.second true ⟨c, hmem, hnode, hjoins, hc⟩
            (fun kind hkind => ?_) (fun _ => ⟨rfl, hlast⟩) (by simp)
          exact (half_of_set rfl hkind).resolve_left fun hself => by
            simp [hc'] at hself
      | false =>
          -- a leave is half done from here on
          rw [hjoins] at hbefore hlast
          have hc : c.halfDone = false := by
            simp [MemberCall.halfDone, hnot, hbefore]
          have hc' : c'.halfDone = true := by
            simp [MemberCall.halfDone, hwrote, hreplaced, hbefore]
          refine Matched.first (s := s) false ?_ (fun kind hkind => ?_)
            ⟨c', hin, hop ▸ hnode, hop ▸ hjoins, hc'⟩ (by simp)
            (fun _ => hlast)
          · have hother := hnoOther hnode hc hc'
            rwa [hjoins] at hother
          · refine (half_of_set rfl hkind).imp_left fun hself => ?_
            rw [← hself.1, hop, hjoins]
    · refine h.same (half_congr hi hop rfl (.inl hnode)) ?_ rfl
      exact (MemberOp.lastOn_append ..).trans (if_neg (hop ▸ hnode))

theorem Matched.step {node : NodeId} (h : s.Matched node) {e : ClusterStep}
    (he : s.Apart e) (hstep : s.step e = some s') : s'.Matched node := by
  rcases e with op | i | i
  · rw [← Option.some.inj hstep]
    refine h.same (fun joins => ?_) rfl rfl
    have hnew : MemberCall.halfDone
        { op, phase := .started, failed := false } = false := by
      cases op <;> rfl
    constructor
    · rintro ⟨c, hc, hnode, hjoins, hhalf⟩
      rcases List.mem_append.mp hc with hc | hc
      · exact ⟨c, hc, hnode, hjoins, hhalf⟩
      · rw [List.mem_singleton.mp hc, hnew] at hhalf
        simp at hhalf
    · rintro ⟨c, hc, hhalf⟩
      exact ⟨c, List.mem_append_left _ hc, hhalf⟩
  · simp only [Cluster.step, Option.bind_eq_bind, Option.bind_eq_some_iff,
      Option.pure_def, Option.some.injEq, Prod.exists] at hstep
    obtain ⟨c, hi, c', effect, hnext, rfl⟩ := hstep
    exact h.advanced hi hnext he
  · simp only [Cluster.step, Option.bind_eq_bind, Option.bind_eq_some_iff]
      at hstep
    obtain ⟨c, hi, hstep⟩ := hstep
    split_ifs at hstep
    rw [Option.some.injEq] at hstep
    subst hstep
    have hop : MemberCall.op { c with failed := true } = c.op := rfl
    exact h.same (half_congr hi hop rfl (.inr rfl)) rfl rfl

theorem Run.mono {Admits Admits' : Cluster → ClusterStep → Prop}
    {s₀ s : Cluster} (hrun : Run Admits s₀ s)
    (h : ∀ s e, Admits s e → Admits' s e) : Run Admits' s₀ s := by
  induction hrun with
  | refl => exact .refl
  | step e _ hadmits hstep ih => exact ih.step e (h _ e hadmits) hstep

theorem Run.sound {voters : Finset NodeId} {metadata : MetaState}
    (h : Run UpToDate (initial voters metadata) s) :
    Sound (initial voters metadata) s := by
  induction h with
  | refl => exact ⟨rfl, rfl, .refl _, .refl _⟩
  | step e _ he hstep ih => exact ih.step he hstep

theorem Run.matched {voters : Finset NodeId} {metadata : MetaState}
    (h : Run Apart (initial voters metadata) s) (node : NodeId) :
    s.Matched node := by
  have hnone : ∀ joins, ¬(initial voters metadata).Half node joins := by
    rintro joins ⟨c, hc, -⟩
    simp [initial] at hc
  induction h with
  | refl => exact ⟨fun h => absurd h (hnone _), fun h => absurd h (hnone _),
      fun h => absurd h (hnone _), fun _ _ => rfl⟩
  | step e _ he hstep ih => exact ih.step he hstep

theorem joined_iff {ops : List MemberOp}
    (h : ops.Perm (s.calls.map MemberCall.op)) {node : NodeId} :
    (∃ addr, MemberOp.join node addr ∈ ops) ↔ s.Joined node := by
  simp only [h.mem_iff, List.mem_map, Joined]
  exact ⟨fun ⟨addr, c, hc, hop⟩ => ⟨c, hc, addr, hop⟩,
    fun ⟨c, hc, addr, hop⟩ => ⟨addr, c, hc, hop⟩⟩

theorem left_iff {ops : List MemberOp}
    (h : ops.Perm (s.calls.map MemberCall.op)) {node : NodeId} :
    MemberOp.leave node ∈ ops ↔ s.Left node := by
  simp only [h.mem_iff, List.mem_map, Left]

/-- Once all calls have returned, all their operations have had their
effect. -/
theorem Sound.composed (h : Sound s₀ s) (hmatched : ∀ node, s.Matched node)
    (hall : ∀ c ∈ s.calls, c.phase = .returned) : Composed s₀ s := by
  have hreplaced : ∀ c ∈ s.calls, c.replaced = true := fun c hc => by
    simp [MemberCall.replaced, hall c hc]
  have hwrote : ∀ c ∈ s.calls, c.wrote = true := by
    intro c hc
    have hphase := hall c hc
    rcases c with ⟨⟨_, _⟩ | _, phase, failed⟩ <;> cases hphase <;> rfl
  have hhalf : ∀ node joins, ¬s.Half node joins := by
    rintro node joins ⟨c, hc, -, -, hhalf⟩
    simp [MemberCall.halfDone, hwrote c hc, hreplaced c hc] at hhalf
  have hchanges := h.changes
  have hwrites := h.writes
  rw [List.filter_eq_self.mpr hreplaced] at hchanges
  rw [List.filter_eq_self.mpr hwrote] at hwrites
  constructor
  · refine ⟨s.writes, hwrites, ?_, h.metadata⟩
    ext node
    rw [h.voters, MemberOp.mem_foldl_change, MemberOp.mem_foldl_change,
      (hmatched node).agree (hhalf node true) (hhalf node false)]
  · intro node hnode
    rw [h.voters, ← joined_iff hchanges, ← left_iff hchanges] at *
    exact (MemberOp.tracks_change node).foldl_iff hnode _
  · intro node hnode
    rw [h.metadata, ← joined_iff hwrites, ← left_iff hwrites] at *
    exact (MemberOp.tracks_write node).foldl_iff hnode _

/-- Membership operations compose in every run in which no voter set is
replaced by one that was computed from another, and no join and leave of one
node overlap, whatever else is asked of its steps. -/
theorem composes_of_upToDate (Admits : Cluster → ClusterStep → Prop) :
    Composes fun s e => Admits s e ∧ UpToDate s e ∧ Apart s e := by
  intro voters metadata s hrun hall
  exact (hrun.mono fun _ _ h => h.2.1).sound.composed
    (hrun.mono fun _ _ h => h.2.2).matched hall

/-! ## Runs on fixed inputs -/

def submittedVoters : Phase → Option (Finset NodeId)
  | .submitted voters => some voters
  | _ => none

instance (s : Cluster) : DecidablePred s.UpToDate
  | .start _ => inferInstanceAs (Decidable True)
  | .fail _ => inferInstanceAs (Decidable True)
  | .advance i => decidable_of_iff
      (∀ c ∈ s.calls[i]?, (submittedVoters c.phase).all fun voters =>
        decide (voters = c.op.change s.voters)) (by
      simp only [UpToDate, Option.mem_def]
      refine forall₂_congr fun c _ => ?_
      cases c.phase <;> simp [submittedVoters])

instance (s : Cluster) : DecidablePred s.Apart
  | .start _ => inferInstanceAs (Decidable True)
  | .fail _ => inferInstanceAs (Decidable True)
  | .advance i => decidable_of_iff
      (∀ c ∈ s.calls[i]?, ∀ next ∈ c.advance s.voters,
        c.halfDone = false → next.1.halfDone = true →
        ∀ other ∈ s.calls, other.op.node = c.op.node →
          other.op.joins ≠ c.op.joins → other.halfDone = false) (by
      simp only [Apart, Option.mem_def, Prod.forall]
      exact ⟨fun h c c' effect hi hnext => h c hi c' effect hnext,
        fun h c hi c' effect hnext => h c c' effect hi hnext⟩)

/-- Node 2 joins while node 1 leaves. -/
def swapping (voters : Finset NodeId) (joining leaving : Phase)
    (changes writes : List MemberOp) : Cluster where
  voters := voters
  metadata := writes.foldl MemberOp.write .empty
  calls := [{ op := .join 2 "b", phase := joining, failed := false },
    { op := .leave 1, phase := leaving, failed := false }]
  changes := changes
  writes := writes

/-- The leave takes effect between the first two steps of the join and its read
of the voters. -/
theorem composes_of_upToDate_two : ∃ s,
    Run (fun s e => True ∧ UpToDate s e ∧ Apart s e)
        (initial {1, 3} .empty) s ∧
      (∀ c ∈ s.calls, c.phase = .returned) ∧
      s.voters = {2, 3} ∧ Composed (initial {1, 3} .empty) s := by
  let Checked : Cluster → ClusterStep → Prop :=
    fun s e => True ∧ UpToDate s e ∧ Apart s e
  have hrun₁ : Run Checked (initial {1, 3} .empty)
      (swapping {1, 3} .started .started [] []) :=
    (Run.refl.step (.start (.join 2 "b")) (by decide) rfl).step
      (.start (.leave 1)) (by decide) rfl
  have hrun₂ : Run Checked _ (swapping {1, 3} .caughtUp .started []
      [.join 2 "b"]) :=
    (hrun₁.step (.advance 0) (by decide) rfl).step (.advance 0) (by decide) rfl
  have hrun₃ : Run Checked _ (swapping {3} .caughtUp .changed [.leave 1]
      [.join 2 "b"]) :=
    (hrun₂.step (.advance 1) (by decide) rfl).step (.advance 1) (by decide) rfl
  have hrun₄ : Run Checked _ (swapping {3} (.submitted {2, 3}) .returned
      [.leave 1] [.join 2 "b", .leave 1]) :=
    (hrun₃.step (.advance 0) (by decide) rfl).step (.advance 1) (by decide) rfl
  have hrun₅ : Run Checked _ (swapping {2, 3} .returned .returned
      [.leave 1, .join 2 "b"] [.join 2 "b", .leave 1]) :=
    hrun₄.step (.advance 0) (by decide) rfl
  have hall : ∀ c ∈ (swapping {2, 3} .returned .returned
      [.leave 1, .join 2 "b"] [.join 2 "b", .leave 1]).calls,
      c.phase = .returned := by decide
  exact ⟨_, hrun₅, hall, rfl,
    composes_of_upToDate (fun _ _ => True) _ _ _ hrun₅ hall⟩

theorem Run.foldlM {steps : List ClusterStep}
    (h : steps.foldlM Cluster.step s = some s') :
    Run (fun _ _ => True) s s' := by
  suffices ∀ s₁, Run (fun _ _ => True) s s₁ →
      steps.foldlM Cluster.step s₁ = some s' →
      Run (fun _ _ => True) s s' from this s .refl h
  clear h
  induction steps with
  | nil =>
      intro s₁ hrun hsteps
      rwa [← Option.some.inj hsteps]
  | cons e steps ih =>
      intro s₁ hrun hsteps
      rw [List.foldlM_cons, Option.bind_eq_bind, Option.bind_eq_some_iff]
        at hsteps
      obtain ⟨s₂, hstep, hsteps⟩ := hsteps
      exact ih s₂ (hrun.step e trivial hstep) hsteps

/-- Two nodes join at once: both calls read the voters before either changes
them, and the second change removes the first node. -/
theorem not_composes : ¬ Composes fun _ _ => True := by
  intro hall
  let steps : List ClusterStep :=
    [.start (.join 2 "b"), .start (.join 3 "c"),
      .advance 0, .advance 0, .advance 0,
      .advance 1, .advance 1, .advance 1, .advance 0, .advance 1]
  obtain ⟨s, hsteps, hvoters, hcalls⟩ : ∃ s,
      steps.foldlM step (initial {1} .empty) = some s ∧
        s.voters = insert 3 {1} ∧
        s.calls = [
          { op := .join 2 "b", phase := .returned, failed := false },
          { op := .join 3 "c", phase := .returned, failed := false }] :=
    ⟨_, rfl, rfl, rfl⟩
  have hcomposed := hall {1} .empty s (.foldlM hsteps) (by simp [hcalls])
  have hjoined : s.Joined 2 := by simp [Joined, hcalls]
  have hleft : ¬ s.Left 2 := by simp [Left, hcalls]
  have hmem := (hcomposed.voters_iff 2 (fun h => hleft h.2)).mpr
    ⟨.inr hjoined, hleft⟩
  rw [hvoters] at hmem
  exact absurd hmem (by decide)

end Cluster

end Quorvec
