import SmeltConsensus.Raft.CommitIndex
import SmeltConsensus.Raft.Log

/-!
What the leader does with a request, and with the replies it waits for inside of
`handle_request`.
-/

set_option autoImplicit false
set_option relaxedAutoImplicit false

namespace SmeltConsensus.Raft.Leader

open SmeltConsensus.Foundation.Network
open SmeltConsensus.Foundation.LinkedHeap
open SmeltConsensus.Message.Header
open SmeltConsensus.Cluster.Parties
open SmeltConsensus.Raft.LogQueue
open SmeltConsensus.Raft.Replica
open SmeltConsensus.Raft.Log
open SmeltConsensus.Raft.CommitIndex

variable {cfg : Config}

/-- The leader executes and answers the entry after the last one applied. -/
theorem applyNext_leader {r : RaftReplicaT} {c k : Nat} (hid : r.id = r.currentLeader)
    (hlog : LogAt r.heap r.queue c k) (hc : c + 1 ≤ k) (happlied : r.lastApplied = c)
    (hcommit : r.commitIndex = c + 1) {e : LogEntry} (he : r.heap.val (c + 1) = some e)
    (hfirst : ∀ e, r.heap.val 0 = some e → e.execCount ≠ cfg.numReplicas)
    (hold : ∀ e, 1 ≤ c - 1 → r.heap.val (c - 1) = some e → e.execCount = cfg.numReplicas) :
    ∃ heap, applyNext cfg r = ({ r with lastApplied := c + 1, heap := heap },
        [.exec e.command, .send (cfg.clientAt e.command.clientId) r.buf]) ∧
      LogAt heap r.queue (c + 1) k ∧
      heap.val = Function.update r.heap.val (c + 1)
        (some { e with execCount := (e.execCount + 1) % 2 ^ 8 }) := by
  have hmem : c + 1 ∈ kept c k := mem_kept.mpr (by omega)
  have hfound := hlog.contains (c + 1)
  rw [if_pos hmem] at hfound
  obtain ⟨heap₁, hset, hlog₁, hval₁⟩ := hlog.setVal hmem
    (f := fun e => { e with execCount := (e.execCount + 1) % 2 ^ 8 }) fun _ => rfl
  rw [he, Option.map_some] at hval₁
  obtain ⟨heap₂, hclean, hlog₂, hval₂⟩ := hlog₁.clean hc (n := cfg.numReplicas)
    (fun e₀ he₀ => by
      rw [hval₁, Function.update_of_ne (Nat.succ_ne_zero c).symm] at he₀
      exact hfirst e₀ he₀)
    (fun e₀ h1 he₀ => by
      rw [hval₁, Function.update_of_ne (by omega)] at he₀
      exact hold e₀ h1 he₀)
  refine ⟨heap₂, ?_, hlog₂, hval₂.trans hval₁⟩
  have hexecuted : cleanExecuted cfg { r with lastApplied := c + 1 } (c + 1) = some heap₂ := by
    rw [cleanExecuted, hset, Option.bind_some, hcommit, hclean]
  rw [applyNext, happlied]
  dsimp only
  rw [hfound]
  dsimp only
  rw [he]
  dsimp only
  rw [if_pos hid, hexecuted]
  rfl

/-- The message by which the leader replicates the request after `k` others. -/
def appendMsg (k : Nat) (msg : SmltMsg) : SmltMsg :=
  { msg.withTag RAFT_APP with
    data1 := setTag (setRequestId msg.data1 1) 0
    data2 := k
    data3 := k }

/-- How often entry `a` was counted while the leader waits for follower `i` to
acknowledge the last of `k` requests. -/
def execCountOf (n k i a : Nat) : Nat :=
  if a < k then n else i - 1 + if committer n < i then 1 else 0

/-- The leader has taken the requests `cs` and waits for follower `i` to acknowledge the
last of them; with `i` the number of replicas it waits for nobody. -/
structure Leading (cfg : Config) (l : RaftReplicaT) (cs : List Command) (i : Nat) : Prop where
  id : l.id = 0
  term : l.currentTerm = 1
  leader : l.currentLeader = 0
  candidate : l.isCandidate = false
  alive : l.crashed = false
  pos : 1 ≤ i
  le : i ≤ cfg.numReplicas
  idle_of_nil : cs = [] → i = cfg.numReplicas
  waits : l.waits = if i < cfg.numReplicas then [i] else []
  lastLogIndex : l.lastLogIndex = cs.length
  match_zero : l.matchIndex 0 = 0
  match_eq : ∀ j, 1 ≤ j → j < cfg.numReplicas →
    l.matchIndex j = if j < i then cs.length else cs.length - 1
  commitIndex : l.commitIndex = committed cfg.numReplicas cs.length i
  lastApplied : l.lastApplied = committed cfg.numReplicas cs.length i
  log : LogAt l.heap l.queue (committed cfg.numReplicas cs.length i) cs.length
  first : ∀ e, l.heap.val 0 = some e → e.execCount = 0
  counts : ∀ a e, 1 ≤ a → a ≤ cs.length → l.heap.val a = some e →
    e.execCount = execCountOf cfg.numReplicas cs.length i a
  commands : ∀ a, 1 ≤ a → a ≤ cs.length → (l.heap.val a).map LogEntry.command = cs[a - 1]?

theorem one_le_committer (n : Nat) : 1 ≤ committer n := Nat.le_max_left _ _

theorem committer_lt (cfg : Config) : committer cfg.numReplicas < cfg.numReplicas := by
  have h2 := cfg.two_le_numReplicas
  unfold committer
  omega

theorem committed_idle (cfg : Config) (k : Nat) :
    committed cfg.numReplicas k cfg.numReplicas = k := if_pos (committer_lt cfg)

/-- The leader waits for nobody exactly between requests. -/
theorem Leading.idle {l : RaftReplicaT} {cs : List Command} {i : Nat} (h : Leading cfg l cs i)
    (hwaits : l.waits = []) : i = cfg.numReplicas := by
  by_contra hne
  have hlt : i < cfg.numReplicas := Nat.lt_of_le_of_ne h.le hne
  rw [h.waits, if_pos hlt] at hwaits
  cases hwaits

theorem leading_init (cfg : Config) :
    Leading cfg (initReplicaRaft cfg 0) [] cfg.numReplicas where
  id := rfl
  term := rfl
  leader := rfl
  candidate := rfl
  alive := rfl
  pos := Nat.le_of_succ_le cfg.two_le_numReplicas
  le := le_rfl
  idle_of_nil _ := rfl
  waits := (if_neg (Nat.lt_irrefl _)).symm
  lastLogIndex := rfl
  match_zero := rfl
  match_eq j h1 hj := (if_pos hj).symm
  commitIndex := (committed_idle cfg 0).symm
  lastApplied := (committed_idle cfg 0).symm
  log := by
    rw [committed_idle]
    exact logAt_init
  first e he := by
    obtain rfl : firstEntry = e := Option.some.inj he
    rfl
  counts a e h1 h0 := by
    rw [List.length_nil] at h0
    omega
  commands a h1 h0 := by
    rw [List.length_nil] at h0
    omega

section Steps

variable {l : RaftReplicaT} {cs : List Command} {msg : SmltMsg}

/-- Between requests a set-up message is answered and changes nothing else. -/
theorem setup_step (h : Leading cfg l cs cfg.numReplicas) (ht : msg.tag = SETUP_TAG) :
    ∃ l', messageHandlerLoop cfg l msg = (l', handleSetup cfg msg) ∧
      Leading cfg l' cs cfg.numReplicas := by
  have hmsg : msg.tag = 0 := ht
  have hwaits : l.waits = [] := by rw [h.waits, if_neg (Nat.lt_irrefl _)]
  have hraft : messageHandlerRaft cfg { l with message := msg } .message =
      ({ l with message := setupReply cfg.clients msg }, handleSetup cfg msg) := by
    simp [messageHandlerRaft, RaftReplicaT.msg, RaftReplicaT.setMsg, hmsg]
  refine ⟨{ l with message := setupReply cfg.clients msg }, ?_, ⟨h.id, h.term, h.leader,
    h.candidate, h.alive, h.pos, h.le, h.idle_of_nil, h.waits, h.lastLogIndex, h.match_zero,
    h.match_eq, h.commitIndex, h.lastApplied, h.log, h.first, h.counts, h.commands⟩⟩
  rw [messageHandlerLoop_idle hwaits hraft]
  dsimp only
  rw [hwaits, settle, ← hwaits]

/-- The leader with a new entry in its log, waiting for the first reply. -/
private theorem leading_request (h : Leading cfg l cs cfg.numReplicas) {heap : LogHeap}
    {queue : LogQueueT}
    (hlog : LogAt heap queue (committed cfg.numReplicas (cs.length + 1) 1) (cs.length + 1))
    (hval : heap.val = Function.update l.heap.val (cs.length + 1)
      (some ⟨0, cs.length + 1, 1, msg.data0, msg.payload⟩)) :
    Leading cfg { l with
      message := appendMsg cs.length msg
      lastLogIndex := cs.length + 1
      heap := heap
      queue := queue
      waits := [1] } (cs ++ [msg.command]) 1 := by
  have hn := cfg.two_le_numReplicas
  have hlt := committer_lt cfg
  have hlen : (cs ++ [msg.command]).length = cs.length + 1 := by
    rw [List.length_append, List.length_singleton]
  have hnext : committed cfg.numReplicas (cs.length + 1) 1 =
      committed cfg.numReplicas cs.length cfg.numReplicas := by
    rw [committed_idle, committed, if_neg (by unfold committer; omega), Nat.add_sub_cancel]
  refine
    { id := h.id
      term := h.term
      leader := h.leader
      candidate := h.candidate
      alive := h.alive
      pos := le_rfl
      le := Nat.le_of_succ_le hn
      idle_of_nil := fun hnil => absurd hnil (by simp)
      waits := (if_pos hn).symm
      lastLogIndex := hlen.symm
      match_zero := h.match_zero
      match_eq := ?_
      commitIndex := ?_
      lastApplied := ?_
      log := ?_
      first := ?_
      counts := ?_
      commands := ?_ }
  · intro j h1 hj
    rw [hlen, if_neg (Nat.not_lt.mpr h1), Nat.add_sub_cancel]
    exact (h.match_eq j h1 hj).trans (if_pos hj)
  · rw [hlen, hnext]
    exact h.commitIndex
  · rw [hlen, hnext]
    exact h.lastApplied
  · rw [hlen]
    exact hlog
  · intro e he
    change heap.val 0 = some e at he
    rw [hval, Function.update_of_ne (Nat.succ_ne_zero _).symm] at he
    exact h.first e he
  · intro a e h1 ha he
    change heap.val a = some e at he
    rw [hlen] at ha ⊢
    rw [hval] at he
    unfold execCountOf
    rcases Nat.lt_or_eq_of_le ha with hlt' | rfl
    · rw [Function.update_of_ne (Nat.ne_of_lt hlt')] at he
      rw [if_pos hlt', h.counts a e h1 (Nat.le_of_lt_succ hlt') he, execCountOf, if_pos hlt]
      split_ifs <;> omega
    · rw [Function.update_self] at he
      obtain rfl := Option.some.inj he
      have hnot : ¬ committer cfg.numReplicas < 1 := by
        unfold committer
        omega
      rw [if_neg (Nat.lt_irrefl _), if_neg hnot]
  · intro a h1 ha
    show (heap.val a).map LogEntry.command = _
    rw [hlen] at ha
    rw [hval]
    rcases Nat.lt_or_eq_of_le ha with hlt' | rfl
    · rw [Function.update_of_ne (Nat.ne_of_lt hlt'),
        h.commands a h1 (Nat.le_of_lt_succ hlt'), List.getElem?_append_left (by omega)]
    · rw [Function.update_self, Nat.add_sub_cancel, List.getElem?_concat_length]
      rfl

/-- The leader takes a request, sends it to the followers and waits for follower 1. -/
theorem request_step (h : Leading cfg l cs cfg.numReplicas) (ht : msg.tag = REQ_TAG) :
    ∃ l', messageHandlerLoop cfg l msg =
        (l', sendEach (List.range' 1 (cfg.numReplicas - 1)) (appendMsg cs.length msg)) ∧
      Leading cfg l' (cs ++ [msg.command]) 1 := by
  have hn := cfg.two_le_numReplicas
  have hidle := committed_idle cfg cs.length
  have hnext : committed cfg.numReplicas (cs.length + 1) 1 = cs.length := by
    unfold committed committer
    rw [if_neg (by omega), Nat.add_sub_cancel]
  have hlog := h.log
  have hcommit := h.commitIndex
  rw [hidle] at hlog hcommit
  obtain ⟨heap, queue, henqueue, hlog', hval⟩ := hlog.push (Nat.le_add_right _ 2)
    (e := ⟨0, cs.length + 1, 1, msg.data0, msg.payload⟩) rfl
  obtain ⟨r, hr⟩ : ∃ r, r = { l with
    message := appendMsg cs.length msg
    lastLogIndex := cs.length + 1
    heap := heap
    queue := queue
    waits := [0] } := ⟨_, rfl⟩
  have hwaits : l.waits = [] := by rw [h.waits, if_neg (Nat.lt_irrefl _)]
  have hid : l.id = l.currentLeader := h.id.trans h.leader.symm
  have hhandle : handleRequest cfg { l with message := msg } .message =
      (r, sendEach (List.range' 1 (cfg.numReplicas - 1)) (appendMsg cs.length msg)) := by
    have hpred : pred64 (cs.length + 1) = cs.length := rfl
    unfold handleRequest
    simp only [RaftReplicaT.msg, RaftReplicaT.setMsg]
    rw [if_pos hid]
    simp only [h.lastLogIndex, h.term, henqueue, hpred, hcommit, hwaits, hr]
    rw [others_zero]
    · rw [h.leader]
      rfl
    · exact h.leader
  have hmsg : msg.tag = 1 := ht
  have hraft : messageHandlerRaft cfg { l with message := msg } .message =
      (r, sendEach (List.range' 1 (cfg.numReplicas - 1)) (appendMsg cs.length msg)) := by
    rw [← hhandle]
    simp [messageHandlerRaft, RaftReplicaT.msg, hmsg]
  have hsettle : settle cfg r r.waits = { r with waits := [1] } := by
    have hleader : r.currentLeader = 0 := by rw [hr, h.leader]
    have hwaits' : r.waits = [0] := by rw [hr]
    rw [hwaits', settle, others_zero hleader]
    obtain ⟨m, hm⟩ : ∃ m, cfg.numReplicas - 1 = m + 1 := ⟨cfg.numReplicas - 2, by omega⟩
    rw [hm, List.range'_succ]
    rfl
  refine ⟨{ r with waits := [1] }, ?_, ?_⟩
  · rw [messageHandlerLoop_idle hwaits hraft, hsettle]
  · subst hr
    refine leading_request h ?_ hval
    rw [hnext]
    exact hlog'

/-- The message acknowledges entry `index` in the name of follower `i`. -/
structure IsReply (msg : SmltMsg) (i index : Nat) : Prop where
  tag : msg.tag = RAFT_APPR
  term : msg.data1 % 2 ^ 32 = 1
  index : msg.data2 = index
  replicaId : msg.data3 % 2 ^ 8 = i
  success : msg.data4 ≠ 0

variable {i : Nat}

/-- The leader that has counted the reply `msg` of follower `i` to the last of `k` requests. -/
private def acknowledged (cfg : Config) (l : RaftReplicaT) (msg : SmltMsg) (i k : Nat)
    (heap : LogHeap) : RaftReplicaT :=
  { l with
    buf := msg
    waits := [i + 1]
    nextIndex := Function.update l.nextIndex i (k + 1)
    matchIndex := Function.update l.matchIndex i k
    heap := heap
    commitIndex := committed cfg.numReplicas k (i + 1) }

/-- `handle_append_response` up to `update_applied_entries`: the entry is counted and nothing
is sent again. -/
private theorem handleAppendResponse_eq (h : Leading cfg l cs i) (hi : i < cfg.numReplicas)
    (hcs : cs ≠ []) (hm : IsReply msg i cs.length) :
    ∃ heap, LogAt heap l.queue (committed cfg.numReplicas cs.length i) cs.length ∧
      heap.val = Function.update l.heap.val cs.length
        ((l.heap.val cs.length).map fun e => { e with execCount := (e.execCount + 1) % 2 ^ 8 }) ∧
      handleAppendResponse cfg { l with buf := msg, waits := [i + 1] } .buf =
        andThen (acknowledged cfg l msg i cs.length heap, []) (updateAppliedEntries cfg) := by
  have hk : 1 ≤ cs.length := List.length_pos_of_ne_nil hcs
  have hle : committed cfg.numReplicas cs.length i ≤ cs.length := by
    unfold committed
    split <;> omega
  have hmem : cs.length ∈ kept (committed cfg.numReplicas cs.length i) cs.length :=
    mem_kept.mpr (by omega)
  have hfound := h.log.contains cs.length
  rw [if_pos hmem] at hfound
  obtain ⟨heap, hset, hlog, hval⟩ := h.log.setVal hmem
    (f := fun e => { e with execCount := (e.execCount + 1) % 2 ^ 8 }) fun _ => rfl
  refine ⟨heap, hlog, hval, ?_⟩
  have hmatch : ∀ j, 1 ≤ j → j < cfg.numReplicas →
      Function.update l.matchIndex i cs.length j = if j ≤ i then cs.length else cs.length - 1 := by
    intro j h1 hj
    by_cases hji : j = i
    · rw [hji, Function.update_self, if_pos le_rfl]
    · rw [Function.update_of_ne hji, h.match_eq j h1 hj]
      split_ifs <;> omega
  have hzero : Function.update l.matchIndex i cs.length 0 = 0 := by
    have hpos := h.pos
    rw [Function.update_of_ne (by omega), h.match_zero]
  have hcommit := commitIndexAfter_reply hk h.pos hi hzero hmatch
  have hnoresend : ¬ cs.length ≥ cs.length + 1 := Nat.not_succ_le_self _
  have hterm : ∀ leader, updateState { l with buf := msg, waits := [i + 1] } 1 leader =
      { l with buf := msg, waits := [i + 1] } := fun leader =>
    updateState_eq { l with buf := msg, waits := [i + 1] } (Nat.le_of_eq h.term.symm) h.candidate leader
  unfold handleAppendResponse
  simp only [RaftReplicaT.msg, hm.term, hm.index, hm.replicaId, hterm]
  rw [if_pos hm.success, hfound]
  dsimp only
  rw [hset]
  simp only [updateCommitIndexLeader, h.commitIndex, hcommit, Function.update_self,
    h.lastLogIndex, if_neg hnoresend, acknowledged]

variable (msg) in
/-- The state after a reply, once the log and the entries are known. -/
private theorem leading_reply (h : Leading cfg l cs i) (hi : i < cfg.numReplicas) (hcs : cs ≠ [])
    {heap : LogHeap}
    (hlog : LogAt heap l.queue (committed cfg.numReplicas cs.length (i + 1)) cs.length)
    (hother : ∀ a, a ≠ cs.length → heap.val a = l.heap.val a)
    (hlast : heap.val cs.length = (l.heap.val cs.length).map fun e =>
      { e with execCount := execCountOf cfg.numReplicas cs.length (i + 1) cs.length }) :
    Leading cfg (settle cfg { acknowledged cfg l msg i cs.length heap with
      lastApplied := committed cfg.numReplicas cs.length (i + 1) } [i + 1]) cs (i + 1) := by
  have hk : 1 ≤ cs.length := List.length_pos_of_ne_nil hcs
  have hpos := h.pos
  rw [settle_eq _ (Nat.le_add_left 1 i)]
  swap
  · exact h.leader
  refine
    { id := h.id
      term := h.term
      leader := h.leader
      candidate := h.candidate
      alive := h.alive
      pos := Nat.le_add_left 1 i
      le := hi
      idle_of_nil := fun hnil => absurd hnil hcs
      waits := rfl
      lastLogIndex := h.lastLogIndex
      match_zero := ?_
      match_eq := ?_
      commitIndex := rfl
      lastApplied := rfl
      log := hlog
      first := ?_
      counts := ?_
      commands := ?_ }
  · show Function.update l.matchIndex i cs.length 0 = 0
    rw [Function.update_of_ne (by omega), h.match_zero]
  · intro j h1 hj
    show Function.update l.matchIndex i cs.length j = _
    by_cases hji : j = i
    · rw [hji, Function.update_self, if_pos (Nat.lt_succ_self i)]
    · rw [Function.update_of_ne hji, h.match_eq j h1 hj]
      split_ifs <;> omega
  · intro e he
    change heap.val 0 = some e at he
    rw [hother 0 (by omega)] at he
    exact h.first e he
  · intro a e h1 ha he
    change heap.val a = some e at he
    rcases Nat.lt_or_eq_of_le ha with hlt | rfl
    · rw [hother a (Nat.ne_of_lt hlt)] at he
      rw [h.counts a e h1 ha he, execCountOf, execCountOf, if_pos hlt, if_pos hlt]
    · rw [hlast] at he
      obtain ⟨e₀, -, rfl⟩ := Option.map_eq_some_iff.mp he
      rfl
  · intro a h1 ha
    show (heap.val a).map LogEntry.command = _
    rw [← h.commands a h1 ha]
    rcases Nat.lt_or_eq_of_le ha with hlt | rfl
    · rw [hother a (Nat.ne_of_lt hlt)]
    · rw [hlast, Option.map_map]
      rfl

/-- `update_applied_entries` after the reply: the heap that it leaves, and what it does. -/
private structure Applies (cfg : Config) (l : RaftReplicaT) (msg : SmltMsg) (i : Nat)
    (cs : List Command) (e : LogEntry) (heap heap' : LogHeap) (outs : List Out) : Prop where
  update : updateAppliedEntries cfg (acknowledged cfg l msg i cs.length heap) =
    ({ acknowledged cfg l msg i cs.length heap' with
      lastApplied := committed cfg.numReplicas cs.length (i + 1) }, outs)
  log : LogAt heap' l.queue (committed cfg.numReplicas cs.length (i + 1)) cs.length
  other : ∀ a, a ≠ cs.length → heap'.val a = l.heap.val a
  last : heap'.val cs.length = some
    { e with execCount := execCountOf cfg.numReplicas cs.length (i + 1) cs.length }

section Replies

variable {heap : LogHeap} {e : LogEntry}

variable (msg) in
/-- The reply that makes the quorum: the last entry is executed and answered. -/
private theorem applies_commit (h : Leading cfg l cs i) (hcs : cs ≠ []) (hi : i < cfg.numReplicas)
    (hcm : i = committer cfg.numReplicas)
    (hlog : LogAt heap l.queue (committed cfg.numReplicas cs.length i) cs.length)
    (he : l.heap.val cs.length = some e)
    (hval : heap.val = Function.update l.heap.val cs.length
      (some { e with execCount := (e.execCount + 1) % 2 ^ 8 })) :
    ∃ heap', Applies cfg l msg i cs e heap heap'
      (cs.getLast?.toList.flatMap fun c => [.exec c, .send (cfg.clientAt c.clientId) msg]) := by
  have hk : 1 ≤ cs.length := List.length_pos_of_ne_nil hcs
  have hbyte := cfg.numReplicas_lt
  have hpos := h.pos
  obtain ⟨c, hc⟩ : ∃ c, cs.length = c + 1 := ⟨cs.length - 1, by omega⟩
  have hbefore : committed cfg.numReplicas cs.length i = c := by
    rw [committed, if_neg (by omega), hc, Nat.add_sub_cancel]
  have hafter : committed cfg.numReplicas cs.length (i + 1) = c + 1 := by
    rw [committed, if_pos (by omega), hc]
  have hcmd : cs.getLast? = some e.command := by
    have hentry := h.commands cs.length hk le_rfl
    rw [he, Option.map_some] at hentry
    rw [List.getLast?_eq_getElem?, ← hentry]
  have hcount := h.counts cs.length e hk le_rfl he
  rw [execCountOf, if_neg (Nat.lt_irrefl _), if_neg (by omega)] at hcount
  have hlast : heap.val (c + 1) = some { e with execCount := (e.execCount + 1) % 2 ^ 8 } := by
    rw [← hc, hval, Function.update_self]
  rw [hbefore] at hlog
  -- the entries that are cleaned up have been executed by everyone
  have hfirst : ∀ e₀, heap.val 0 = some e₀ → e₀.execCount ≠ cfg.numReplicas := by
    intro e₀ he₀
    rw [hval, Function.update_of_ne (by omega)] at he₀
    rw [h.first e₀ he₀]
    have hn := cfg.two_le_numReplicas
    omega
  have hprev : ∀ e₀, 1 ≤ c - 1 → heap.val (c - 1) = some e₀ →
      e₀.execCount = cfg.numReplicas := by
    intro e₀ h1 he₀
    rw [hval, Function.update_of_ne (by omega)] at he₀
    rw [h.counts (c - 1) e₀ h1 (by omega) he₀, execCountOf, if_pos (by omega)]
  obtain ⟨heap', hnext, hlog', hval'⟩ :=
    @applyNext_leader cfg (acknowledged cfg l msg i cs.length heap) c cs.length
      (h.id.trans h.leader.symm) hlog (Nat.le_of_eq hc.symm) (h.lastApplied.trans hbefore)
      hafter _ hlast hfirst hprev
  change heap'.val = Function.update heap.val (c + 1) _ at hval'
  rw [← hc] at hval'
  refine ⟨heap', ?_, ?_, ?_, ?_⟩
  · rw [hcmd, hafter]
    refine updateAppliedEntries_one ?_ hnext
    show committed cfg.numReplicas cs.length (i + 1) = l.lastApplied + 1
    rw [hafter, h.lastApplied, hbefore]
  · rw [hafter]
    exact hlog'
  · intro a ha
    rw [hval', Function.update_of_ne ha, hval, Function.update_of_ne ha]
  · rw [hval', Function.update_self, execCountOf, if_neg (Nat.lt_irrefl _), if_pos (by omega)]
    have hexec : ((e.execCount + 1) % 2 ^ 8 + 1) % 2 ^ 8 = i + 1 - 1 + 1 := by omega
    rw [← hexec]

variable (msg) in
/-- Nothing is committed by any other reply. -/
private theorem applies_idle (h : Leading cfg l cs i) (hcs : cs ≠ []) (hi : i < cfg.numReplicas)
    (hcm : i ≠ committer cfg.numReplicas)
    (hlog : LogAt heap l.queue (committed cfg.numReplicas cs.length i) cs.length)
    (he : l.heap.val cs.length = some e)
    (hval : heap.val = Function.update l.heap.val cs.length
      (some { e with execCount := (e.execCount + 1) % 2 ^ 8 })) :
    Applies cfg l msg i cs e heap heap [] := by
  have hk : 1 ≤ cs.length := List.length_pos_of_ne_nil hcs
  have hbyte := cfg.numReplicas_lt
  have hpos := h.pos
  have hcount := h.counts cs.length e hk le_rfl he
  rw [execCountOf, if_neg (Nat.lt_irrefl _)] at hcount
  have hsame : committed cfg.numReplicas cs.length (i + 1) =
      committed cfg.numReplicas cs.length i := by
    unfold committed
    split_ifs <;> omega
  constructor
  · refine (updateAppliedEntries_none ?_).trans ?_
    · exact hsame.trans h.lastApplied.symm
    · rw [hsame, ← h.lastApplied]
      rfl
  · rw [hsame]
    exact hlog
  · intro a ha
    rw [hval, Function.update_of_ne ha]
  · rw [hval, Function.update_self, execCountOf, if_neg (Nat.lt_irrefl _)]
    have hexec : (e.execCount + 1) % 2 ^ 8 =
        i + 1 - 1 + if committer cfg.numReplicas < i + 1 then 1 else 0 := by
      rw [hcount]
      split_ifs <;> omega
    rw [hexec]

end Replies

/-- The leader handles the reply it waits for; one of the replies lets it commit. -/
theorem reply_step (h : Leading cfg l cs i) (hi : i < cfg.numReplicas)
    (hcs : cs ≠ []) (hm : IsReply msg i cs.length) :
    ∃ l', messageHandlerLoop cfg l msg = (l', if i = committer cfg.numReplicas then
        cs.getLast?.toList.flatMap fun c => [.exec c, .send (cfg.clientAt c.clientId) msg]
        else []) ∧
      Leading cfg l' cs (i + 1) := by
  have hwaits : l.waits = [i] := by rw [h.waits, if_pos hi]
  obtain ⟨heap, hlog, hval, hhandle⟩ := handleAppendResponse_eq h hi hcs hm
  obtain ⟨e, he, -⟩ := h.log.val_eq (Nat.le_refl cs.length)
  rw [he, Option.map_some] at hval
  obtain ⟨heap', happlies⟩ : ∃ heap', Applies cfg l msg i cs e heap heap'
      (if i = committer cfg.numReplicas then
        cs.getLast?.toList.flatMap fun c => [.exec c, .send (cfg.clientAt c.clientId) msg]
        else []) := by
    by_cases hcm : i = committer cfg.numReplicas
    · rw [if_pos hcm]
      exact applies_commit msg h hcs hi hcm hlog he hval
    · rw [if_neg hcm]
      exact ⟨heap, applies_idle msg h hcs hi hcm hlog he hval⟩
  refine ⟨_, ?_, leading_reply msg h hi hcs happlies.log happlies.other ?_⟩
  · refine messageHandlerLoop_blocked hwaits ?_
    have hmsg : msg.tag = 4 := hm.tag
    have htag : messageHandlerRaft cfg { l with buf := msg, waits := [i + 1] } .buf =
        handleAppendResponse cfg { l with buf := msg, waits := [i + 1] } .buf := by
      simp [messageHandlerRaft, RaftReplicaT.msg, hmsg]
    rw [htag, hhandle]
    exact andThen_eq (r := acknowledged cfg l msg i cs.length heap) h.alive _ happlies.update []
  · rw [he, happlies.last]
    rfl

end Steps

end SmeltConsensus.Raft.Leader
