import Quorvec.Cluster.Retry
import Quorvec.Node.Reconcile

/-!
# Changes of a shard's state on a follower

A node commits the state of its replica through its own Raft instance.  On a
follower Raft refuses, with an error that names the leader.  The manager looks
into the text of the error for two phrases, and the node forwards the request
to the leader only if one of them occurs.

The text of that error has neither phrase of its own.  So the request of a
follower reaches the leader exactly when the leader's address, in its debug
form, happens to contain one.
-/

namespace Quorvec

open ByteCodec

/-! ## What Raft answers -/

/-- The record of a node in the membership. -/
structure BasicNode where
  addr : String
deriving DecidableEq

/-- The refusal of a write by a follower. -/
structure ForwardToLeader where
  leaderId : Option NodeId
  leaderNode : Option BasicNode
deriving DecidableEq

/-- How a write ends at one Raft instance. -/
inductive ClientWrite
  | committed (note : String)
  | forwardToLeader (e : ForwardToLeader)
  /-- Any other error; the entry may be committed all the same. -/
  | failed (text : String) (inLog : Bool)
deriving DecidableEq

section Text

-- whether a character stands for itself in debug output: it is printable and
-- does not extend a grapheme
variable (printed : Char → Bool)

/-- A character in the debug form of a string. -/
def escapeDebug (c : Char) : List Char :=
  if c = '\x00' then ['\\', '0']
  else if c = '\t' then ['\\', 't']
  else if c = '\r' then ['\\', 'r']
  else if c = '\n' then ['\\', 'n']
  else if c = '"' then ['\\', '"']
  else if c = '\\' then ['\\', '\\']
  else if printed c then [c]
  else ['\\', 'u', '\x7b'] ++ Nat.toDigits 16 c.toNat ++ ['\x7d']

/-- `{:?}` of a string. -/
def debugStr (s : String) : String :=
  "\"" ++ String.ofList (s.toList.flatMap (escapeDebug printed)) ++ "\""

/-- `{:?}` of an option, given that of what it holds. -/
def debugOption {α : Type*} (debug : α → String) : Option α → String
  | none => "None"
  | some a => "Some(" ++ debug a ++ ")"

def BasicNode.debug (node : BasicNode) : String :=
  "BasicNode \x7b addr: " ++ debugStr printed node.addr ++ " \x7d"

/-- The text of a refusal. -/
def ForwardToLeader.text (e : ForwardToLeader) : String :=
  "has to forward request to: " ++ debugOption toString e.leaderId ++ ", " ++
    debugOption (BasicNode.debug printed) e.leaderNode

end Text

/-- The phrases by which the manager knows a refusal. -/
def HasPhrase (text : String) : Prop :=
  containsText text "ForwardToLeader" ∨ containsText text "not the leader"

instance (text : String) : Decidable (HasPhrase text) :=
  inferInstanceAs (Decidable (_ ∨ _))

/-- The debug form of the leader's address contains one of the phrases. -/
def ForwardToLeader.Recognised (printed : Char → Bool) (e : ForwardToLeader) :
    Prop :=
  ∃ node, e.leaderNode = some node ∧ HasPhrase (debugStr printed node.addr)

/-- `ClusterManager::write`, given what Raft answers. -/
def ClientWrite.managed (printed : Char → Bool) :
    ClientWrite → Except ManagerError String
  | .committed note => .ok note
  | .forwardToLeader e => .error (.ofWrite (e.text printed))
  | .failed text _ => .error (.ofWrite text)

/-- What a write leaves in the log. -/
def ClientWrite.logged (req : MetaRequest) : ClientWrite → List MetaRequest
  | .committed _ => [req]
  | .forwardToLeader _ => []
  | .failed _ inLog => if inLog then [req] else []

/-! ## The leader's side -/

/-- The JSON form of a request; an error has a text. -/
structure RequestJson where
  toVec : MetaRequest → Except String Bytes
  fromSlice : Bytes → Except String MetaRequest

/-- The form of a request is read back. -/
def RequestJson.RoundTrips (json : RequestJson) (req : MetaRequest) : Prop :=
  ∃ bytes, json.toVec req = .ok bytes ∧ json.fromSlice bytes = .ok req

structure MetaWriteResponse where
  committed : Bool
  note : String

/-- The error status of a forwarded write. -/
inductive MetaWriteStatus
  | failedPrecondition (text : String)
  | internal (text : String)

/-- The text of an error of the manager. -/
def ManagerError.text : ManagerError → String
  | .raft text => s!"raft: {text}"
  | .notLeader text => s!"not the leader{text}"
  | .invalid text => s!"invalid request: {text}"

/-- The handler of a forwarded request, and what it leaves in the log. -/
def metaWrite (printed : Char → Bool) (json : RequestJson) (raft : ClientWrite)
    (request : Bytes) :
    List MetaRequest × Except MetaWriteStatus MetaWriteResponse :=
  match json.fromSlice request with
  | .error text =>
      ([], .error (.internal
        (ManagerError.invalid s!"bad MetaRequest: {text}").text))
  | .ok req =>
      (raft.logged req,
        match raft.managed printed with
        | .ok note => .ok { committed := true, note }
        | .error (.notLeader _) => .error (.failedPrecondition "not the leader")
        | .error e => .error (.internal e.text))

/-! ## The node's side -/

/-- What a node meets while it changes the state of a replica. -/
structure MetaPlane where
  /-- How Raft ends the write on the node itself. -/
  own : ClientWrite
  /-- The leader that the node's Raft metrics show. -/
  currentLeader : Option NodeId
  /-- The metadata that the node has applied. -/
  metadata : MetaState
  /-- The node that takes a connection to an endpoint. -/
  connect : String → Option NodeId
  /-- How Raft ends a forwarded write on the node that is reached. -/
  forwarded : NodeId → ClientWrite
  /-- Whether the answer of that node arrives in time. -/
  answered : Bool

/-- The address of the leader, if it is known and in the directory. -/
def MetaPlane.leaderAddr (plane : MetaPlane) : Option String :=
  plane.currentLeader.bind fun leader => plane.metadata.nodes[leader]?

/-- The endpoint of an address. -/
def endpoint (addr : String) : String :=
  if addr.startsWith "http://" || addr.startsWith "https://" then addr
  else s!"http://{addr}"

/-- What a requested change has led to. -/
structure ChangeReport where
  /-- What the change has left in the log. -/
  committed : List MetaRequest
  /-- The node whose handler was called. -/
  forwardedTo : Option NodeId
  result : Except Unit Unit

section SetState

variable (printed : Char → Bool) (json : RequestJson) (plane : MetaPlane)
variable (collection : String) (shardIdx : UInt32) (nodeId : NodeId)
variable (newState : ShardState)

/-- Commit a change of a replica's state, at the leader if this node is a
follower. -/
def setState : ChangeReport :=
  let req := MetaRequest.setShardState collection shardIdx nodeId newState
  let logged := plane.own.logged req
  let refused : ChangeReport :=
    { committed := logged, forwardedTo := none, result := .error () }
  match plane.own.managed printed with
  | .ok _ => { committed := logged, forwardedTo := none, result := .ok () }
  | .error (.notLeader _) =>
      match plane.leaderAddr with
      | none => refused
      | some addr =>
          match json.toVec req with
          | .error _ => refused
          | .ok request =>
              match plane.connect (endpoint addr) with
              | none => refused
              | some node =>
                  match metaWrite printed json (plane.forwarded node) request
                    with
                  | (more, reply) =>
                      { committed := logged ++ more
                        forwardedTo := some node
                        result :=
                          if plane.answered then
                            match reply with
                            | .ok response =>
                                if response.committed then .ok ()
                                else .error ()
                            | .error _ => .error ()
                          else .error () }
  | .error _ => refused

end SetState

/-- A known leader takes a connection to its address, commits what it is sent
and answers. -/
def MetaPlane.KnowsLeader (plane : MetaPlane) (leader : NodeId) : Prop :=
  plane.currentLeader = some leader ∧
    ∃ addr note, plane.metadata.nodes[leader]? = some addr ∧
      plane.connect (endpoint addr) = some leader ∧
      plane.forwarded leader = .committed note ∧ plane.answered

/-- A change is answered with success only if it is committed; and the change
of a follower that knows a reachable leader is committed there. -/
structure ReachesLog (printed : Char → Bool) (json : RequestJson)
    (plane : MetaPlane) (collection : String) (shardIdx : UInt32)
    (nodeId : NodeId) (newState : ShardState) : Prop where
  committed :
    (setState printed json plane collection shardIdx nodeId
        newState).result = .ok () →
      .setShardState collection shardIdx nodeId newState ∈
        (setState printed json plane collection shardIdx nodeId
          newState).committed
  forwarded : ∀ e leader, plane.own = .forwardToLeader e →
    plane.KnowsLeader leader →
    setState printed json plane collection shardIdx nodeId newState =
      { committed := [.setShardState collection shardIdx nodeId newState]
        forwardedTo := some leader, result := .ok () }

/-! ## The phrases in the text of a refusal -/

theorem toList_debugStr (printed : Char → Bool) (s : String) :
    (debugStr printed s).toList =
      '"' :: (s.toList.flatMap (escapeDebug printed) ++ ['"']) := by
  simp only [debugStr, String.toList_append, String.toList_ofList]
  simp

theorem toList_debugNode (printed : Char → Bool) (node : BasicNode) :
    (node.debug printed).toList = "BasicNode \x7b addr: ".toList ++
      (debugStr printed node.addr).toList ++ " \x7d".toList := by
  change ("BasicNode \x7b addr: " ++ debugStr printed node.addr ++
    " \x7d").toList = _
  rw [String.toList_append, String.toList_append]

theorem toList_text (printed : Char → Bool) (e : ForwardToLeader) :
    (e.text printed).toList = "has to forward request to: ".toList ++
      (debugOption toString e.leaderId).toList ++ ", ".toList ++
        (debugOption (BasicNode.debug printed) e.leaderNode).toList := by
  change ("has to forward request to: " ++ debugOption toString e.leaderId ++
    ", " ++ debugOption (BasicNode.debug printed) e.leaderNode).toList = _
  rw [String.toList_append, String.toList_append, String.toList_append]

/-- A part without a certain letter lies on one side of the letter. -/
theorem infix_append_cons_iff {α : Type*} {part xs ys : List α} {a : α}
    (h : a ∉ part) :
    part <:+: xs ++ a :: ys ↔ part <:+: xs ∨ part <:+: ys := by
  constructor
  · intro hpart
    rcases List.infix_append_iff.mp hpart with hxs | hys | ⟨l, r, rfl, hl, hr⟩
    · exact .inl hxs
    · rcases List.infix_cons_iff.mp hys with hhead | htail
      · rcases List.prefix_cons_iff.mp hhead with rfl | ⟨t, rfl, -⟩
        · exact .inl (List.nil_infix)
        · exact absurd List.mem_cons_self h
      · exact .inr htail
    · rcases List.prefix_cons_iff.mp hr with rfl | ⟨t, rfl, -⟩
      · rw [List.append_nil]
        exact .inl hl.isInfix
      · exact absurd (List.mem_append_right l List.mem_cons_self) h
  · rintro (hxs | hys)
    · exact List.infix_append_of_infix_left hxs
    · exact List.infix_append_of_infix_right (hys.trans
        (List.suffix_cons a ys).isInfix)

/-- A phrase that does not occur in the constant parts of a refusal: it has
none of the punctuation there, and its first letter is not a digit. -/
structure Phrase (phrase : List Char) : Prop where
  quote : '"' ∉ phrase
  comma : ',' ∉ phrase
  opening : '(' ∉ phrase
  closing : ')' ∉ phrase
  letter : ∃ c ∈ phrase, ¬ c.isDigit
  lead : ¬ phrase <:+: "has to forward request to: Some".toList
  leadNone : ¬ phrase <:+: "has to forward request to: None".toList
  node : ¬ phrase <:+: " Some".toList
  nodeNone : ¬ phrase <:+: " None".toList
  field : ¬ phrase <:+: "BasicNode \x7b addr: ".toList
  brace : ¬ phrase <:+: " \x7d".toList

theorem phrase_forwardToLeader : Phrase "ForwardToLeader".toList := by
  constructor
  case letter => exact ⟨'F', by simp, by decide⟩
  all_goals decide +kernel

theorem phrase_notTheLeader : Phrase "not the leader".toList := by
  constructor
  case letter => exact ⟨'n', by simp, by decide⟩
  all_goals decide +kernel

section Occurs

variable {printed : Char → Bool} {phrase : List Char} (h : Phrase phrase)

include h

theorem Phrase.not_infix_nil : ¬ phrase <:+: [] := by
  obtain ⟨c, hc, -⟩ := h.letter
  intro hnil
  rw [List.eq_nil_of_infix_nil hnil] at hc
  exact List.not_mem_nil hc

theorem Phrase.not_infix_toString (n : NodeId) :
    ¬ phrase <:+: (toString n).toList := by
  obtain ⟨c, hc, hdigit⟩ := h.letter
  intro hinfix
  have hmem : c ∈ Nat.toDigits 10 n.toNat := by
    rw [← Nat.toList_repr]
    exact hinfix.subset hc
  exact hdigit (Nat.isDigit_of_mem_toDigits (by decide) (by decide) hmem)

theorem Phrase.not_infix_leaderId (id : Option NodeId) :
    ¬ phrase <:+: "has to forward request to: ".toList ++
      (debugOption toString id).toList := by
  rcases id with _ | id
  · simpa [debugOption] using h.leadNone
  · have hsplit : "has to forward request to: ".toList ++
        (debugOption toString (some id)).toList =
          "has to forward request to: Some".toList ++
            '(' :: ((toString id).toList ++ ')' :: []) := by
      simp [debugOption]
    rw [hsplit, infix_append_cons_iff h.opening,
      infix_append_cons_iff h.closing]
    simp only [h.lead, h.not_infix_toString, h.not_infix_nil, or_self,
      not_false_eq_true]

/-- A phrase occurs in the leader's node only where it occurs in the
address. -/
theorem Phrase.infix_leaderNode_iff (node : Option BasicNode) :
    phrase <:+: ' ' :: (debugOption (BasicNode.debug printed) node).toList ↔
      ∃ n, node = some n ∧ phrase <:+: (debugStr printed n.addr).toList := by
  rcases node with _ | node
  · simpa [debugOption] using h.nodeNone
  · have hsplit : ' ' :: (debugOption (BasicNode.debug printed)
        (some node)).toList = " Some".toList ++
          '(' :: ("BasicNode \x7b addr: ".toList ++
            (debugStr printed node.addr).toList ++ " \x7d".toList ++
              ')' :: []) := by
      simp [debugOption, toList_debugNode]
    have hquoted : "BasicNode \x7b addr: ".toList ++
        (debugStr printed node.addr).toList ++ " \x7d".toList =
          "BasicNode \x7b addr: ".toList ++
            '"' :: (node.addr.toList.flatMap (escapeDebug printed) ++
              '"' :: " \x7d".toList) := by
      simp [toList_debugStr]
    have haddr : (debugStr printed node.addr).toList = [] ++
        '"' :: (node.addr.toList.flatMap (escapeDebug printed) ++
          '"' :: []) := toList_debugStr printed node.addr
    rw [hsplit, hquoted]
    simp only [haddr, Option.some.injEq, exists_eq_left',
      infix_append_cons_iff h.opening, infix_append_cons_iff h.closing,
      infix_append_cons_iff h.quote, h.node, h.field, h.brace,
      h.not_infix_nil, false_or, or_false]

theorem Phrase.infix_text_iff (e : ForwardToLeader) :
    phrase <:+: (e.text printed).toList ↔
      ∃ n, e.leaderNode = some n ∧
        phrase <:+: (debugStr printed n.addr).toList := by
  have hsplit : (e.text printed).toList =
      ("has to forward request to: ".toList ++
        (debugOption toString e.leaderId).toList) ++
      ',' :: (' ' ::
        (debugOption (BasicNode.debug printed) e.leaderNode).toList) := by
    simp [toList_text]
  rw [hsplit, infix_append_cons_iff h.comma, h.infix_leaderNode_iff]
  simp only [h.not_infix_leaderId, false_or]

end Occurs

theorem hasPhrase_text_iff {printed : Char → Bool} (e : ForwardToLeader) :
    HasPhrase (e.text printed) ↔ e.Recognised printed := by
  simp only [HasPhrase, containsText, decide_eq_true_eq,
    ForwardToLeader.Recognised, phrase_forwardToLeader.infix_text_iff,
    phrase_notTheLeader.infix_text_iff, and_or_left, exists_or]

theorem ManagerError.ofWrite_of_hasPhrase {text : String}
    (h : HasPhrase text) : ofWrite text = .notLeader s!": {text}" := by
  rw [ofWrite, if_pos]
  simpa [HasPhrase] using h

theorem ManagerError.ofWrite_of_not_hasPhrase {text : String}
    (h : ¬ HasPhrase text) : ofWrite text = .raft s!"client_write: {text}" := by
  rw [ofWrite, if_neg]
  simpa [HasPhrase] using h

/-! ### Ordinary addresses -/

theorem exists_digitChar_of_mem_toDigitsCore {b fuel n : ℕ} {c : Char}
    {cs : List Char} (hb : 0 < b) (h : c ∈ Nat.toDigitsCore b fuel n cs) :
    c ∈ cs ∨ ∃ d < b, c = Nat.digitChar d := by
  induction fuel generalizing n cs with
  | zero =>
      rw [Nat.toDigitsCore] at h
      exact .inl h
  | succ fuel ih =>
      have hhead : ∀ {c}, c ∈ (n % b).digitChar :: cs →
          c ∈ cs ∨ ∃ d < b, c = Nat.digitChar d := by
        intro c hc
        rcases List.mem_cons.mp hc with rfl | hc
        · exact .inr ⟨n % b, Nat.mod_lt n hb, rfl⟩
        · exact .inl hc
      rw [Nat.toDigitsCore] at h
      split_ifs at h with hlast
      · exact hhead h
      · exact (ih h).elim hhead .inr

/-- Escapes have no capital F and no blank. -/
theorem eq_of_mem_escapeDebug {printed : Char → Bool} {x c : Char}
    (hx : x = 'F' ∨ x = ' ') (h : x ∈ escapeDebug printed c) : x = c := by
  have hdigit : x ∉ Nat.toDigits 16 c.toNat := by
    intro hmem
    rcases exists_digitChar_of_mem_toDigitsCore (by decide) hmem with
      hnil | ⟨d, hd, heq⟩
    · exact List.not_mem_nil hnil
    · have hnone : ∀ d < 16, Nat.digitChar d ≠ 'F' ∧
          Nat.digitChar d ≠ ' ' := by decide
      rcases hx with rfl | rfl
      · exact (hnone d hd).1 heq.symm
      · exact (hnone d hd).2 heq.symm
  have hescape : ∀ {y : Char}, y ≠ 'F' → y ≠ ' ' → x ∉ ['\\', y] := by
    intro y hF hblank hmem
    rcases hx with rfl | rfl
    · simp [hF.symm] at hmem
    · simp [hblank.symm] at hmem
  unfold escapeDebug at h
  split_ifs at h with _ _ _ _ _ _ hprinted
  iterate 6 exact absurd h (hescape (by decide) (by decide))
  · exact List.mem_singleton.mp h
  · rcases List.mem_append.mp h with h | h
    · rcases List.mem_append.mp h with h | h
      · rcases hx with rfl | rfl
        · simp at h
        · simp at h
      · exact absurd h hdigit
    · rcases hx with rfl | rfl
      · simp at h
      · simp at h

theorem mem_of_mem_debugStr {printed : Char → Bool} {x : Char} {s : String}
    (hx : x = 'F' ∨ x = ' ') (h : x ∈ (debugStr printed s).toList) :
    x ∈ s.toList := by
  have hquote : x ≠ '"' := by
    rcases hx with rfl | rfl <;> decide
  rw [toList_debugStr, List.mem_cons, List.mem_append, List.mem_singleton,
    or_iff_right hquote, or_iff_left hquote, List.mem_flatMap] at h
  obtain ⟨c, hc, hmem⟩ := h
  rw [eq_of_mem_escapeDebug hx hmem]
  exact hc

theorem not_recognised_of_ordinary {printed : Char → Bool}
    {e : ForwardToLeader} (h : ∀ node, e.leaderNode = some node →
      'F' ∉ node.addr.toList ∧ ' ' ∉ node.addr.toList) :
    ¬ e.Recognised printed := by
  rintro ⟨node, hnode, hphrase⟩
  obtain ⟨hF, hblank⟩ := h node hnode
  simp only [HasPhrase, containsText, decide_eq_true_eq] at hphrase
  rcases hphrase with hphrase | hphrase
  · exact hF (mem_of_mem_debugStr (.inl rfl) (hphrase.subset (by simp)))
  · exact hblank (mem_of_mem_debugStr (.inr rfl) (hphrase.subset (by simp)))

/-! ## Which changes reach the log -/

section Changes

variable {printed : Char → Bool} {json : RequestJson} {plane : MetaPlane}
variable {collection : String} {shardIdx : UInt32} {nodeId : NodeId}
variable {newState : ShardState} {e : ForwardToLeader} {leader : NodeId}

theorem ClientWrite.mem_logged {req : MetaRequest} {raft : ClientWrite} :
    ∀ r ∈ raft.logged req, r = req := by
  intro r hr
  rcases raft with note | e | ⟨text, _ | _⟩ <;> simp_all [logged]

theorem ClientWrite.logged_of_managed {req : MetaRequest} {raft : ClientWrite}
    {note : String} (h : raft.managed printed = .ok note) :
    raft.logged req = [req] := by
  rcases raft with note | e | ⟨text, inLog⟩
  · rfl
  · simp [managed] at h
  · simp [managed] at h

section Request

variable {req : MetaRequest} {request : Bytes}
variable (hread : json.fromSlice request = .ok req)

include hread

theorem mem_metaWrite {raft : ClientWrite} :
    ∀ r ∈ (metaWrite printed json raft request).1, r = req := by
  rw [metaWrite, hread]
  exact ClientWrite.mem_logged

theorem metaWrite_confirmed {raft : ClientWrite} {response : MetaWriteResponse}
    (h : (metaWrite printed json raft request).2 = .ok response) :
    req ∈ (metaWrite printed json raft request).1 := by
  rw [metaWrite, hread] at h ⊢
  rcases hmanaged : raft.managed printed with error | note
  · simp only [hmanaged] at h
    rcases error with text | text | text <;> simp at h
  · simp [ClientWrite.logged_of_managed hmanaged]

end Request

section Change

variable (hjson : json.RoundTrips
  (.setShardState collection shardIdx nodeId newState))

include hjson

/-- A change leaves nothing but its request in the log, and it is there when
the change succeeds. -/
theorem setState_committed :
    (∀ r ∈ (setState printed json plane collection shardIdx nodeId
        newState).committed,
      r = .setShardState collection shardIdx nodeId newState) ∧
    ((setState printed json plane collection shardIdx nodeId
        newState).result = .ok () →
      .setShardState collection shardIdx nodeId newState ∈
        (setState printed json plane collection shardIdx nodeId
          newState).committed) := by
  obtain ⟨request, hvec, hread⟩ := hjson
  simp only [setState]
  rcases hown : plane.own.managed printed with error | note
  · rcases error with text | text | text
    case notLeader =>
      rcases plane.leaderAddr with _ | addr
      · exact ⟨ClientWrite.mem_logged, by simp⟩
      · simp only [hvec]
        rcases plane.connect (endpoint addr) with _ | node
        · exact ⟨ClientWrite.mem_logged, by simp⟩
        · refine ⟨fun r hr => ?_, fun hok => ?_⟩
          · rcases List.mem_append.mp hr with hown | hthere
            · exact ClientWrite.mem_logged r hown
            · exact mem_metaWrite hread r hthere
          · rcases hreply : (metaWrite printed json (plane.forwarded node)
                request).2 with status | response
            · simp [hreply] at hok
            · exact List.mem_append_right _ (metaWrite_confirmed hread hreply)
    all_goals exact ⟨ClientWrite.mem_logged, by simp⟩
  · simp only [ClientWrite.logged_of_managed hown]
    simp

/-- A refusal that is recognised is followed by a commit at the leader. -/
theorem setState_recognised (hown : plane.own = .forwardToLeader e)
    (hleader : plane.KnowsLeader leader) (h : e.Recognised printed) :
    setState printed json plane collection shardIdx nodeId newState =
      { committed := [.setShardState collection shardIdx nodeId newState]
        forwardedTo := some leader, result := .ok () } := by
  obtain ⟨request, hvec, hread⟩ := hjson
  obtain ⟨hcurrent, addr, note, haddr, hconnect, hthere, hanswered⟩ := hleader
  have hmanaged : plane.own.managed printed =
      .error (.notLeader s!": {e.text printed}") := by
    rw [hown, ClientWrite.managed,
      ManagerError.ofWrite_of_hasPhrase ((hasPhrase_text_iff e).mpr h)]
  have hlogged (req : MetaRequest) : plane.own.logged req = [] := by
    rw [hown, ClientWrite.logged]
  have hknown : plane.leaderAddr = some addr := by
    rw [MetaPlane.leaderAddr, hcurrent, Option.bind_some, haddr]
  have hreply : metaWrite printed json (plane.forwarded leader) request =
      ([.setShardState collection shardIdx nodeId newState],
        .ok { committed := true, note }) := by
    simp only [metaWrite, hread, hthere, ClientWrite.logged,
      ClientWrite.managed]
  simp only [setState, hmanaged, hknown, hvec, hconnect, hreply, hanswered,
    hlogged, List.nil_append, if_true]

end Change

theorem setState_unrecognised (hown : plane.own = .forwardToLeader e)
    (h : ¬ e.Recognised printed) :
    setState printed json plane collection shardIdx nodeId newState =
      { committed := [], forwardedTo := none, result := .error () } := by
  have hmanaged : plane.own.managed printed =
      .error (.raft s!"client_write: {e.text printed}") := by
    rw [hown, ClientWrite.managed, ManagerError.ofWrite_of_not_hasPhrase
      (mt (hasPhrase_text_iff e).mp h)]
  have hlogged (req : MetaRequest) : plane.own.logged req = [] := by
    rw [hown, ClientWrite.logged]
  simp only [setState, hmanaged, hlogged]

end Changes

/-- The changes of a node reach the log if and only if a phrase occurs in the
leader's address whenever the node is a follower of a reachable leader. -/
theorem reachesLog_iff (printed : Char → Bool) (json : RequestJson)
    (plane : MetaPlane) (collection : String) (shardIdx : UInt32)
    (nodeId : NodeId) (newState : ShardState)
    (hjson : json.RoundTrips
      (.setShardState collection shardIdx nodeId newState)) :
    ReachesLog printed json plane collection shardIdx nodeId newState ↔
      ∀ e leader, plane.own = .forwardToLeader e → plane.KnowsLeader leader →
        e.Recognised printed := by
  constructor
  · intro hreaches e leader hown hleader
    by_contra hunknown
    have hreport := hreaches.forwarded e leader hown hleader
    rw [setState_unrecognised hown hunknown] at hreport
    simp at hreport
  · intro hphrase
    refine ⟨(setState_committed hjson).2, fun e leader hown hleader => ?_⟩
    exact setState_recognised hjson hown hleader
      (hphrase e leader hown hleader)

/-! ## Changes in the course of a pass -/

/-- What becomes of a change, as a pass sees it. -/
def ChangeReport.fate (report : ChangeReport) : ChangeFate :=
  match report.result with
  | .ok () => .committed
  | .error () => if report.committed.isEmpty then .refused else .answerLost

section Pass

variable {printed : Char → Bool} {json : RequestJson} {plane : MetaPlane}
variable {env : ReconcileEnv} {me : NodeId} {newState : ShardState}

/-- A pass whose environment settles a change as the node does: it learns of
the same result, and the same is committed. -/
theorem setState_of_fate (p : Pass) (key : ShardKey)
    (hjson : json.RoundTrips
      (.setShardState key.collection key.shardIdx me newState))
    (hchange : env.change key newState = (setState printed json plane
      key.collection key.shardIdx me newState).fate) :
    ((p.setState env me key newState).2 = true ↔
      (setState printed json plane key.collection key.shardIdx me
        newState).result = .ok ()) ∧
    ∀ r, r ∈ (p.setState env me key newState).1.committed ↔
      r ∈ p.committed ∨ r ∈ (setState printed json plane key.collection
        key.shardIdx me newState).committed := by
  obtain ⟨honly, hcommitted⟩ := @setState_committed printed json plane
    key.collection key.shardIdx me newState hjson
  revert hchange honly hcommitted
  generalize setState printed json plane key.collection key.shardIdx me
    newState = report
  intro hchange honly hcommitted
  obtain ⟨committed, forwardedTo, result⟩ := report
  have hmem (hne : committed ≠ []) (r : MetaRequest) : r ∈ committed ↔
      r = .setShardState key.collection key.shardIdx me newState := by
    obtain ⟨first, hfirst⟩ := List.exists_mem_of_ne_nil committed hne
    refine ⟨honly r, fun hr => ?_⟩
    rw [hr, ← honly first hfirst]
    exact hfirst
  rcases result with u | u
  · rcases committed with _ | ⟨first, rest⟩
    · have hrefused : env.change key newState = .refused := hchange
      simp [Pass.setState, hrefused]
    · have hlost : env.change key newState = .answerLost := hchange
      simp only [Pass.setState, hlost, hmem (List.cons_ne_nil first rest)]
      simp [or_comm]
  · have hok : env.change key newState = .committed := hchange
    have hne : committed ≠ [] := List.ne_nil_of_mem (hcommitted rfl)
    simp only [Pass.setState, hok, hmem hne]
    simp [or_comm]

/-- A follower whose refusal is not recognised acquires no shard that has a
source. -/
theorem acquireShard_unrecognised (R : Runtime) (xxh64 : Bytes → UInt64)
    (p : Pass) (snapshot : MetaState) (collection : String)
    (schema : CollectionSchema) (shardIdx : UInt32) {e : ForwardToLeader}
    (hown : plane.own = .forwardToLeader e) (h : ¬ e.Recognised printed)
    (hchange : env.change { collection, shardIdx } .syncing =
      (setState printed json plane collection shardIdx me .syncing).fate)
    (hsources : transferSources xxh64 snapshot me collection shardIdx ≠ []) :
    (p.acquireShard R xxh64 env me snapshot collection schema shardIdx).2 =
        false ∧
      (p.acquireShard R xxh64 env me snapshot collection schema
        shardIdx).1.world = p.world ∧
      (p.acquireShard R xxh64 env me snapshot collection schema
        shardIdx).1.committed = p.committed := by
  obtain ⟨source, sources, hview⟩ := List.exists_cons_of_ne_nil hsources
  rw [setState_unrecognised hown h] at hchange
  simp [Pass.acquireShard, hview, Pass.setState, hchange, ChangeReport.fate]

end Pass

namespace ForwardedChange

/-- Whether a character is printable in ASCII. -/
def ascii (c : Char) : Bool :=
  decide (32 ≤ c.toNat ∧ c.toNat < 127)

/-- The request that node 2 takes in for a replica. -/
def request : MetaRequest := .setShardState "c" 0 2 .syncing

/-- The JSON form of that request. -/
def bytes : Bytes :=
  ("\x7b\"SetShardState\":\x7b\"collection\":\"c\",\"shard_idx\":0," ++
    "\"node_id\":2,\"state\":\"Syncing\"\x7d\x7d").toUTF8.toList

def json : RequestJson where
  toVec := fun _ => .ok bytes
  fromSlice := fun b =>
    if b = bytes then .ok request else .error "expected value"

theorem roundTrips : json.RoundTrips request :=
  ⟨bytes, rfl, if_pos rfl⟩

/-- A follower of node 1, which has this address and can be reached. -/
def follower (addr : String) : MetaPlane where
  own := .forwardToLeader
    { leaderId := some 1, leaderNode := some { addr } }
  currentLeader := some 1
  metadata := (MetaState.empty.apply (.registerNode 1 addr)).1
  connect := fun _ => some 1
  forwarded := fun _ => .committed "shard-state-set"
  answered := true

theorem knowsLeader (addr : String) : (follower addr).KnowsLeader 1 :=
  ⟨rfl, addr, "shard-state-set", Std.ExtTreeMap.getElem?_insert_self, rfl, rfl,
    rfl⟩

end ForwardedChange

open ForwardedChange in
/-- A host that is named after the error is recognised. -/
theorem reachesLog_namedHost :
    ReachesLog ascii json (follower "ForwardToLeader.local:7001") "c" 0 2
      .syncing := by
  rw [reachesLog_iff ascii json (follower "ForwardToLeader.local:7001") "c" 0 2
    .syncing roundTrips]
  intro e leader hown _
  obtain rfl := ClientWrite.forwardToLeader.inj hown
  exact ⟨_, rfl, .inl (by decide +kernel)⟩

open ForwardedChange in
/-- At an ordinary address of the leader the change of a follower ends with
the refusal. -/
theorem not_reachesLog_follower : ¬ ∀ printed json plane collection shardIdx
    nodeId newState,
    json.RoundTrips (.setShardState collection shardIdx nodeId newState) →
    ReachesLog printed json plane collection shardIdx nodeId newState := by
  intro hall
  have hreport := (hall ascii json (follower "127.0.0.1:7001") "c" 0 2 .syncing
    roundTrips).forwarded _ 1 rfl (knowsLeader _)
  rw [setState_unrecognised rfl] at hreport
  · simp at hreport
  · apply not_recognised_of_ordinary
    rintro node hnode
    obtain rfl := Option.some.inj hnode
    exact ⟨by decide, by decide⟩

end Quorvec
