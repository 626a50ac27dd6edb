import Quorvec.Cluster.Manager

/-!
# Retrying a membership operation

A call that joins or leaves a node commits its steps one by one, and stops at
the first that fails.  A join that has stopped can be repeated: every step may
be made again.  A leave checks that the node is a voter before it does anything,
and removes it from the voters before it removes it from the directory; a leave
that has stopped in between is refused from then on.
-/

namespace Quorvec

inductive ManagerError
  | raft (text : String)
  | notLeader (text : String)
  | invalid (text : String)
deriving DecidableEq

/-- `str::contains`. -/
def containsText (text part : String) : Bool :=
  decide (part.toList <:+: text.toList)

/-- The error of a metadata write that Raft has refused. -/
def ManagerError.ofWrite (text : String) : ManagerError :=
  if containsText text "ForwardToLeader" || containsText text "not the leader"
  then .notLeader s!": {text}"
  else .raft s!"client_write: {text}"

/-- How the Raft steps of a call end, each with the text of its error if it
fails. -/
structure RaftOutcomes where
  clientWrite : Except String Unit
  addLearner : Except String Unit
  changeMembership : Except String Unit

/-- All steps succeed. -/
def RaftOutcomes.succeeding : RaftOutcomes :=
  { clientWrite := .ok (), addLearner := .ok (), changeMembership := .ok () }

/-- What the leader has committed. -/
structure Membership where
  voters : Finset NodeId
  metadata : MetaState

namespace Membership

/-- `ClusterManager::write`. -/
def write (s : Membership) (outcome : Except String Unit) (req : MetaRequest) :
    Membership × Except ManagerError String :=
  match outcome with
  | .error text => (s, .error (.ofWrite text))
  | .ok () =>
      let (metadata, note) := s.metadata.apply req
      ({ s with metadata }, .ok note)

def joinNode (o : RaftOutcomes) (s : Membership) (newId : NodeId)
    (advertiseAddr : String) : Membership × Except ManagerError Unit :=
  match s.write o.clientWrite (.registerNode newId advertiseAddr) with
  | (s, .error e) => (s, .error e)
  | (s, .ok _) =>
      match o.addLearner with
      | .error text => (s, .error (.raft s!"add_learner: {text}"))
      | .ok () =>
          match o.changeMembership with
          | .error text =>
              (s, .error (.raft s!"change_membership(join): {text}"))
          | .ok () => ({ s with voters := insert newId s.voters }, .ok ())

def leaveNode (o : RaftOutcomes) (s : Membership) (nodeId : NodeId) :
    Membership × Except ManagerError Unit :=
  if nodeId ∉ s.voters then
    (s, .error (.invalid s!"node {nodeId} is not a current voter"))
  else if s.voters.erase nodeId = ∅ then
    (s, .error (.invalid "refusing to remove the last voter"))
  else
    match o.changeMembership with
    | .error text => (s, .error (.raft s!"change_membership(leave): {text}"))
    | .ok () =>
        let s := { s with voters := s.voters.erase nodeId }
        match s.write o.clientWrite (.deregisterNode nodeId) with
        | (s, .error e) => (s, .error e)
        | (s, .ok _) => (s, .ok ())

/-- The directory lists exactly the voters. -/
def Agrees (s : Membership) : Prop :=
  ∀ node, node ∈ s.metadata.nodes ↔ node ∈ s.voters

end Membership

namespace MemberOp

/-- One call of the operation. -/
def attempt (op : MemberOp) (o : RaftOutcomes) (s : Membership) :
    Membership × Except ManagerError Unit :=
  match op with
  | join newId advertiseAddr => s.joinNode o newId advertiseAddr
  | leave nodeId => s.leaveNode o nodeId

/-- The state after one call after the other. -/
def attempts (op : MemberOp) (s : Membership) (os : List RaftOutcomes) :
    Membership :=
  os.foldl (fun s o => (op.attempt o s).1) s

/-- Every call returns an error. -/
def FailsEach (op : MemberOp) (s : Membership) : List RaftOutcomes → Prop
  | [] => True
  | o :: os => (∃ e, (op.attempt o s).2 = .error e) ∧
      op.FailsEach (op.attempt o s).1 os

/-- The node is a voter after a join, and none after a leave. -/
def Done (op : MemberOp) (s : Membership) : Prop :=
  match op with
  | join newId _ => newId ∈ s.voters
  | leave nodeId => nodeId ∉ s.voters

/-- After these calls, a call whose steps all succeed returns, and the directory
lists exactly the voters. -/
def Finishes (op : MemberOp) (s : Membership) (os : List RaftOutcomes) : Prop :=
  (op.attempt .succeeding (op.attempts s os)).2 = .ok () ∧
    (op.attempt .succeeding (op.attempts s os)).1.Agrees ∧
    op.Done (op.attempt .succeeding (op.attempts s os)).1

/-- A join; or a leave of a voter, not the last one, which has not changed the
voters in any of the calls that have failed. -/
def Retryable (op : MemberOp) (s : Membership) (os : List RaftOutcomes) :
    Prop :=
  match op with
  | join .. => True
  | leave nodeId => nodeId ∈ s.voters ∧ s.voters.erase nodeId ≠ ∅ ∧
      ∀ o ∈ os, o.changeMembership ≠ .ok ()

end MemberOp

/-! ## Repeating a join -/

namespace Membership

variable {s : Membership} {o : RaftOutcomes}

/-- The directory and the voters agree on every other node. -/
def AgreesOff (s : Membership) (node : NodeId) : Prop :=
  ∀ other, other ≠ node → (other ∈ s.metadata.nodes ↔ other ∈ s.voters)

theorem Agrees.off (h : s.Agrees) (node : NodeId) : s.AgreesOff node :=
  fun other _ => h other

theorem mem_registered (metadata : MetaState) (newId : NodeId)
    (advertiseAddr : String) (node : NodeId) :
    node ∈ (metadata.apply (.registerNode newId advertiseAddr)).1.nodes ↔
      node = newId ∨ node ∈ metadata.nodes := by
  simp [MetaState.apply, @eq_comm _ node]

theorem mem_deregistered (metadata : MetaState) (nodeId node : NodeId) :
    node ∈ (metadata.apply (.deregisterNode nodeId)).1.nodes ↔
      node ≠ nodeId ∧ node ∈ metadata.nodes := by
  simp [MetaState.apply, @eq_comm _ node]

theorem AgreesOff.register {newId : NodeId} (h : s.AgreesOff newId)
    (advertiseAddr : String) (voters : Finset NodeId)
    (hvoters : ∀ other, other ≠ newId → (other ∈ voters ↔ other ∈ s.voters)) :
    AgreesOff { voters, metadata :=
      (s.metadata.apply (.registerNode newId advertiseAddr)).1 } newId := by
  intro other hne
  rw [mem_registered, hvoters other hne, ← h other hne]
  exact or_iff_right hne

/-- However far a join comes, it touches its own node only. -/
theorem AgreesOff.joinNode {newId : NodeId} (h : s.AgreesOff newId)
    (advertiseAddr : String) :
    (s.joinNode o newId advertiseAddr).1.AgreesOff newId := by
  have hregistered := h.register advertiseAddr s.voters fun _ _ => Iff.rfl
  unfold Membership.joinNode
  cases o.clientWrite with
  | error text => exact h
  | ok =>
      simp only [write]
      cases o.addLearner with
      | error text => exact hregistered
      | ok =>
          cases o.changeMembership with
          | error text => exact hregistered
          | ok =>
              refine h.register advertiseAddr _ fun other hne => ?_
              rw [Finset.mem_insert]
              exact or_iff_right hne

theorem joinNode_succeeding (newId : NodeId) (advertiseAddr : String) :
    s.joinNode .succeeding newId advertiseAddr =
      ({ voters := insert newId s.voters
         metadata :=
           (s.metadata.apply (.registerNode newId advertiseAddr)).1 },
        .ok ()) := rfl

end Membership

/-- A join can be repeated until it succeeds, whatever has failed before. -/
theorem MemberOp.finishes_join {s : Membership} {newId : NodeId}
    (h : s.AgreesOff newId) (advertiseAddr : String)
    (os : List RaftOutcomes) :
    (join newId advertiseAddr).Finishes s os := by
  have hoff : ((join newId advertiseAddr).attempts s os).AgreesOff newId := by
    induction os generalizing s with
    | nil => exact h
    | cons o os ih => exact ih (h.joinNode advertiseAddr)
  have hend := Membership.joinNode_succeeding
    (s := (join newId advertiseAddr).attempts s os) newId advertiseAddr
  refine ⟨congrArg Prod.snd hend, fun node => ?_, ?_⟩
  · show node ∈ (Membership.joinNode _ _ _ _).1.metadata.nodes ↔
      node ∈ (Membership.joinNode _ _ _ _).1.voters
    rw [hend, Membership.mem_registered, Finset.mem_insert]
    by_cases hnode : node = newId
    · simp [hnode]
    · rw [hoff node hnode]
  · exact Finset.mem_insert_self _ _

/-! ## Repeating a leave -/

namespace Membership

variable {s : Membership} {o : RaftOutcomes} {nodeId : NodeId}

theorem leaveNode_of_not_voter (h : nodeId ∉ s.voters) :
    s.leaveNode o nodeId =
      (s, .error (.invalid s!"node {nodeId} is not a current voter")) :=
  if_pos h

theorem leaveNode_of_refused
    (h : nodeId ∉ s.voters ∨ s.voters.erase nodeId = ∅) :
    ∃ e, s.leaveNode o nodeId = (s, .error e) := by
  by_cases hvoter : nodeId ∈ s.voters
  · have hlast := h.resolve_left (not_not_intro hvoter)
    exact ⟨_, (if_neg (not_not_intro hvoter)).trans (if_pos hlast)⟩
  · exact ⟨_, leaveNode_of_not_voter hvoter⟩

theorem leaveNode_of_not_changed (h : nodeId ∈ s.voters)
    (hrest : s.voters.erase nodeId ≠ ∅) {text : String}
    (ho : o.changeMembership = .error text) :
    s.leaveNode o nodeId =
      (s, .error (.raft s!"change_membership(leave): {text}")) := by
  rw [leaveNode, if_neg (not_not_intro h), if_neg hrest, ho]

theorem leaveNode_of_changed (h : nodeId ∈ s.voters)
    (hrest : s.voters.erase nodeId ≠ ∅) (ho : o.changeMembership = .ok ()) :
    s.leaveNode o nodeId =
      match o.clientWrite with
      | .error text => ({ s with voters := s.voters.erase nodeId },
          .error (.ofWrite text))
      | .ok () =>
          ({ voters := s.voters.erase nodeId
             metadata := (s.metadata.apply (.deregisterNode nodeId)).1 },
            .ok ()) := by
  rw [leaveNode, if_neg (not_not_intro h), if_neg hrest, ho]
  cases o.clientWrite <;> rfl

theorem leaveNode_succeeding (h : nodeId ∈ s.voters)
    (hrest : s.voters.erase nodeId ≠ ∅) :
    s.leaveNode .succeeding nodeId =
      ({ voters := s.voters.erase nodeId
         metadata := (s.metadata.apply (.deregisterNode nodeId)).1 },
        .ok ()) :=
  leaveNode_of_changed h hrest rfl

end Membership

namespace MemberOp

variable {s : Membership} {nodeId : NodeId} {os : List RaftOutcomes}

/-- A leave that is refused does nothing, and is refused again. -/
theorem not_finishes_leave_of_refused
    (h : nodeId ∉ s.voters ∨ s.voters.erase nodeId = ∅) :
    ¬(leave nodeId).Finishes s os := by
  have hattempt (o : RaftOutcomes) :
      ∃ e, (leave nodeId).attempt o s = (s, .error e) :=
    Membership.leaveNode_of_refused h
  have hsame : (leave nodeId).attempts s os = s := by
    induction os with
    | nil => rfl
    | cons o os ih =>
        obtain ⟨e, he⟩ := hattempt o
        show (leave nodeId).attempts ((leave nodeId).attempt o s).1 os = s
        rw [he]
        exact ih
  obtain ⟨e, he⟩ := hattempt .succeeding
  rintro ⟨hok, -⟩
  rw [hsame, he] at hok
  cases hok

/-- A leave can be repeated as long as it has not changed the voters. -/
theorem finishes_leave_iff (hagrees : s.Agrees) (h : nodeId ∈ s.voters)
    (hrest : s.voters.erase nodeId ≠ ∅) (hfails : (leave nodeId).FailsEach s os) :
    (leave nodeId).Finishes s os ↔
      ∀ o ∈ os, o.changeMembership ≠ .ok () := by
  induction os with
  | nil =>
      have hend : (leave nodeId).attempt .succeeding s = _ :=
        Membership.leaveNode_succeeding h hrest
      refine iff_of_true ⟨?_, ?_, ?_⟩ (by simp)
      · exact congrArg Prod.snd hend
      · intro node
        show node ∈ ((leave nodeId).attempt .succeeding s).1.metadata.nodes ↔
          node ∈ ((leave nodeId).attempt .succeeding s).1.voters
        rw [hend, Membership.mem_deregistered, Finset.mem_erase, hagrees node]
      · show nodeId ∉ ((leave nodeId).attempt .succeeding s).1.voters
        rw [hend]
        exact Finset.notMem_erase nodeId s.voters
  | cons o os ih =>
      rw [List.forall_mem_cons]
      cases ho : o.changeMembership with
      | error text =>
          -- the call has changed nothing
          have hattempt : (leave nodeId).attempt o s = _ :=
            Membership.leaveNode_of_not_changed h hrest ho
          have hsame : (leave nodeId).Finishes s (o :: os) ↔
              (leave nodeId).Finishes s os := by
            unfold Finishes attempts
            rw [List.foldl_cons, hattempt]
          have hlater := hfails.2
          rw [hattempt] at hlater
          rw [hsame, ih hlater]
          exact (and_iff_right (by simp)).symm
      | ok =>
          -- the call has removed the voter, and then its write has failed
          refine iff_of_false ?_ fun hall => hall.1 rfl
          have hattempt : (leave nodeId).attempt o s = _ :=
            Membership.leaveNode_of_changed h hrest ho
          obtain ⟨e, he⟩ := hfails.1
          rw [hattempt] at he
          cases hwrite : o.clientWrite with
          | ok => simp [hwrite] at he
          | error text =>
              rw [hwrite] at hattempt
              have hsame : (leave nodeId).Finishes s (o :: os) ↔
                  (leave nodeId).Finishes
                    { s with voters := s.voters.erase nodeId } os := by
                unfold Finishes attempts
                rw [List.foldl_cons, hattempt]
              rw [hsame]
              exact not_finishes_leave_of_refused
                (.inl (Finset.notMem_erase nodeId s.voters))

/-- Whether an operation whose calls have all failed so far can be finished by
calling it again. -/
theorem finishes_iff_retryable (op : MemberOp) (hagrees : s.Agrees)
    (hfails : op.FailsEach s os) :
    op.Finishes s os ↔ op.Retryable s os := by
  cases op with
  | join newId advertiseAddr =>
      exact iff_of_true (finishes_join (hagrees.off newId) advertiseAddr os)
        trivial
  | leave nodeId =>
      by_cases h : nodeId ∈ s.voters ∧ s.voters.erase nodeId ≠ ∅
      · rw [finishes_leave_iff hagrees h.1 h.2 hfails]
        exact ⟨fun hall => ⟨h.1, h.2, hall⟩, fun hretry => hretry.2.2⟩
      · refine iff_of_false (not_finishes_leave_of_refused ?_)
          fun hretry => h ⟨hretry.1, hretry.2.1⟩
        rw [not_and_or, not_not] at h
        exact h

end MemberOp

/-- Two voters, both in the directory. -/
def Membership.twoNodes : Membership :=
  { voters := {1, 2}
    metadata := ((MetaState.empty.apply (.registerNode 1 "a")).1.apply
      (.registerNode 2 "b")).1 }

theorem Membership.twoNodes_agrees : twoNodes.Agrees := by
  intro node
  simp [twoNodes, mem_registered, MetaState.empty, or_comm]

namespace MemberOp

/-- A leave fails before it changes the voters. -/
theorem finishes_iff_retryable_two :
    ∃ o : RaftOutcomes, (leave 2).FailsEach .twoNodes [o] ∧
      (leave 2).Finishes .twoNodes [o] := by
  let o : RaftOutcomes :=
    { RaftOutcomes.succeeding with changeMembership := .error "no quorum" }
  have hfails : (leave 2).FailsEach .twoNodes [o] := ⟨⟨_, rfl⟩, trivial⟩
  refine ⟨o, hfails, (finishes_iff_retryable (leave 2)
    Membership.twoNodes_agrees hfails).mpr ⟨by decide, by decide, ?_⟩⟩
  simp [o]

/-- A leave fails after it has changed the voters: no later call removes the
node from the directory. -/
theorem not_finishes_leave :
    ∃ o : RaftOutcomes, Membership.twoNodes.Agrees ∧
      (leave 2).FailsEach .twoNodes [o] ∧
      (leave 2).attempt .succeeding ((leave 2).attempts .twoNodes [o]) =
        ((leave 2).attempts .twoNodes [o],
          .error (.invalid "node 2 is not a current voter")) ∧
      2 ∈ ((leave 2).attempts .twoNodes [o]).metadata.nodes ∧
      ¬(leave 2).Finishes .twoNodes [o] := by
  let o : RaftOutcomes :=
    { RaftOutcomes.succeeding with clientWrite := .error "no quorum" }
  have hgone : 2 ∉ ((leave 2).attempts .twoNodes [o]).voters := by decide
  have hretry : (leave 2).attempt .succeeding
      ((leave 2).attempts .twoNodes [o]) =
        ((leave 2).attempts .twoNodes [o],
          .error (.invalid "node 2 is not a current voter")) :=
    @Membership.leaveNode_of_not_voter _ .succeeding 2 hgone
  refine ⟨o, Membership.twoNodes_agrees, ⟨⟨_, rfl⟩, trivial⟩, hretry, ?_, ?_⟩
  · exact (Membership.twoNodes_agrees 2).mpr (by decide)
  · rintro ⟨hok, -⟩
    rw [hretry] at hok
    cases hok

/-! ## A call is a run of the cluster -/

/-- What is left of a call: it has returned, or it has failed on the way. -/
def Ended (op : MemberOp) (result : Except ManagerError Unit)
    (calls : List MemberCall) : Prop :=
  match result with
  | .ok () => calls = [{ op, phase := .returned, failed := false }]
  | .error _ => ∃ phase, calls = [{ op, phase, failed := true }]

/-- Steps of the cluster that do what the call does. -/
def RunsAlone (op : MemberOp) (o : RaftOutcomes) (s : Membership) : Prop :=
  ∃ steps t, List.foldlM Cluster.step
      (Cluster.initial s.voters s.metadata) steps = some t ∧
    t.voters = (op.attempt o s).1.voters ∧
    t.metadata = (op.attempt o s).1.metadata ∧
    op.Ended (op.attempt o s).2 t.calls

theorem runsAlone_join (newId : NodeId) (advertiseAddr : String)
    (o : RaftOutcomes) (s : Membership) :
    (join newId advertiseAddr).RunsAlone o s := by
  unfold RunsAlone
  simp only [attempt]
  unfold Membership.joinNode Membership.write
  cases o.clientWrite with
  | error text =>
      exact ⟨[.start (.join newId advertiseAddr), .fail 0], _, rfl, rfl,
        rfl, _, rfl⟩
  | ok =>
      cases o.addLearner with
      | error text =>
          exact ⟨[.start (.join newId advertiseAddr), .advance 0, .fail 0],
            _, rfl, rfl, rfl, _, rfl⟩
      | ok =>
          cases o.changeMembership with
          | error text =>
              exact ⟨[.start (.join newId advertiseAddr), .advance 0,
                .advance 0, .fail 0], _, rfl, rfl, rfl, _, rfl⟩
          | ok =>
              exact ⟨[.start (.join newId advertiseAddr), .advance 0,
                .advance 0, .advance 0, .advance 0], _, rfl, rfl, rfl, rfl⟩

theorem runsAlone_leave_of_refused {nodeId : NodeId} {s : Membership}
    (h : nodeId ∉ s.voters ∨ s.voters.erase nodeId = ∅) (o : RaftOutcomes) :
    (leave nodeId).RunsAlone o s := by
  obtain ⟨e, he⟩ := Membership.leaveNode_of_refused h
  unfold RunsAlone
  simp only [attempt]
  rw [he]
  refine ⟨[.start (leave nodeId), .advance 0],
    { Cluster.initial s.voters s.metadata with
      calls := [{ op := leave nodeId, phase := .started, failed := true }] },
    ?_, rfl, rfl, _, rfl⟩
  simp [Cluster.step, Cluster.initial, MemberCall.advance, h,
    Cluster.advanced]

/-- A leave that is not refused has submitted its change after its first
step. -/
theorem foldlM_start_leave {nodeId : NodeId} {s : Membership}
    (h : ¬(nodeId ∉ s.voters ∨ s.voters.erase nodeId = ∅))
    (rest : List ClusterStep) :
    List.foldlM Cluster.step (Cluster.initial s.voters s.metadata)
        ([.start (leave nodeId), .advance 0] ++ rest) =
      List.foldlM Cluster.step
        { Cluster.initial s.voters s.metadata with
          calls := [{
            op := leave nodeId
            phase := .submitted (s.voters.erase nodeId)
            failed := false }] } rest := by
  have hstart : List.foldlM Cluster.step
      (Cluster.initial s.voters s.metadata)
      [.start (leave nodeId), .advance 0] =
        some { Cluster.initial s.voters s.metadata with
          calls := [{
            op := leave nodeId
            phase := .submitted (s.voters.erase nodeId)
            failed := false }] } := by
    simp [Cluster.step, Cluster.initial, MemberCall.advance, h,
      Cluster.advanced]
  rw [List.foldlM_append, hstart]
  exact Option.bind_some ..

theorem runsAlone_leave (nodeId : NodeId) (o : RaftOutcomes)
    (s : Membership) : (leave nodeId).RunsAlone o s := by
  by_cases hrefused : nodeId ∉ s.voters ∨ s.voters.erase nodeId = ∅
  · exact runsAlone_leave_of_refused hrefused o
  have hrun := foldlM_start_leave hrefused
  unfold RunsAlone
  simp only [attempt]
  rw [not_or, not_not] at hrefused
  cases hchange : o.changeMembership with
  | error text =>
      rw [Membership.leaveNode_of_not_changed hrefused.1 hrefused.2 hchange]
      exact ⟨_, _, hrun [.fail 0], rfl, rfl, _, rfl⟩
  | ok =>
      rw [Membership.leaveNode_of_changed hrefused.1 hrefused.2 hchange]
      cases o.clientWrite with
      | error text =>
          exact ⟨_, _, hrun [.advance 0, .fail 0], rfl, rfl, _, rfl⟩
      | ok => exact ⟨_, _, hrun [.advance 0, .advance 0], rfl, rfl, rfl⟩

theorem attempt_run (op : MemberOp) (o : RaftOutcomes) (s : Membership) :
    ∃ t, Cluster.Run (fun _ _ => True)
        (Cluster.initial s.voters s.metadata) t ∧
      t.voters = (op.attempt o s).1.voters ∧
      t.metadata = (op.attempt o s).1.metadata ∧
      op.Ended (op.attempt o s).2 t.calls := by
  obtain ⟨steps, t, hsteps, ht⟩ : op.RunsAlone o s := by
    cases op with
    | join newId advertiseAddr => exact runsAlone_join newId advertiseAddr o s
    | leave nodeId => exact runsAlone_leave nodeId o s
  exact ⟨t, Cluster.Run.foldlM hsteps, ht⟩

end MemberOp

end Quorvec
