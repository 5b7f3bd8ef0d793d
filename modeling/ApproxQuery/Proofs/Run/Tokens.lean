import ApproxQuery.Proofs.Run.Turns
import ApproxQuery.Proofs.Run.Wiring

/-! Tokens and what they stand for. A task that has a permit has heard from every node it reads,
and each of these has stored its result. -/
namespace ApproxQuery

/-- The task has put its tokens on their way. -/
def Phase.hasSignalled : Phase → Bool
  | .signalled _ => true
  | .joined => true
  | _ => false

/-- The task has a permit. -/
def Phase.holdsPermit : Phase → Bool
  | .running _ => true
  | .asking _ _ => true
  | _ => false

namespace RunState

def hasSignalled (st : RunState) (id : NodeId) : Bool := (st.phase? id).any Phase.hasSignalled

def tokensOn (st : RunState) (queue : QueueId) : List Token := (st.tokens.find? queue).getD []

variable {st : RunState} {token token' : Token} {queues : List QueueId} {queue : QueueId}

theorem tokensOn_post_of_not_mem (absent : queue ∉ queues) :
    (st.post token queues).tokensOn queue = st.tokensOn queue := by
  unfold tokensOn post
  induction queues generalizing st with
  | nil => rfl
  | cons first rest ih =>
    rw [List.mem_cons, not_or] at absent
    have later := @ih { st with tokens := st.tokens.append first [token] } absent.2
    rw [List.foldl_cons, later, AscendingMap.find?_append, if_neg (Ne.symm absent.1)]

theorem tokensOn_post_singleton :
    (st.post token [queue]).tokensOn queue = st.tokensOn queue ++ [token] := by
  unfold tokensOn post
  rw [List.foldl_cons, List.foldl_nil, AscendingMap.find?_append, if_pos rfl]
  rfl

end RunState

namespace Setting

/-- The task of a node has been told that the node's result is stored. -/
def Stored (s : Setting) (log : List Event) (id : NodeId) : Prop :=
  ∃ n query, s.node? id = some n ∧ .answered (some id) (.createTableAs n.scratch query) true ∈ log

/-- A waiting task has heard from some of its dependents, which have stored their results. From
those it has not heard from there are as many tokens as have signalled. -/
structure Account (s : Setting) (st : RunState) (n : Node) (left : Nat) (heard : List NodeId) :
    Prop where
  count : left + heard.length = n.dependents.length
  signalled : ∀ queue ∈ n.listens, (heard ++ (st.tokensOn queue).map Token.producer).Perm
    (n.dependents.filter st.hasSignalled)
  stored : ∀ d ∈ heard, s.Stored st.log d

/-- What has been signalled is true, and no task has a permit too early. -/
structure Accounted (s : Setting) (st : RunState) : Prop where
  sent : ∀ {queue token}, token ∈ st.tokensOn queue → token.completed = true →
    s.Stored st.log token.producer
  ended : ∀ {id report}, st.phase? id = some (.returned (.ok report)) → id ≠ s.root →
    s.Stored st.log id
  waiting : ∀ {id n missing}, st.phase? id = some (.waiting missing) → s.node? id = some n →
    ∃ left heard, missing = n.outstanding left ∧ Account s st n left heard
  holding : ∀ {id n phase}, st.phase? id = some phase → phase.holdsPermit = true →
    s.node? id = some n → ∀ d ∈ n.dependents, s.Stored st.log d

variable {s : Setting} {st st' : RunState} {id d : NodeId} {n : Node} {old new : Phase}

theorem Stored.mono {log log' : List Event} (stored : s.Stored log d) (grown : log <+: log') :
    s.Stored log' d := by
  obtain ⟨n, query, found, told⟩ := stored
  exact ⟨n, query, found, grown.subset told⟩

namespace Account

variable {left : Nat} {heard : List NodeId}

theorem atMost (account : Account s st n left heard) : left ≤ n.dependents.length :=
  account.count ▸ Nat.le_add_right _ _

theorem keep (account : Account s st n left heard)
    (tokens : ∀ queue ∈ n.listens, st'.tokensOn queue = st.tokensOn queue)
    (signalled : ∀ d ∈ n.dependents, st'.hasSignalled d = st.hasSignalled d)
    (grown : st.log <+: st'.log) : Account s st' n left heard where
  count := account.count
  signalled := by
    intro queue hears
    rw [tokens queue hears, List.filter_congr signalled]
    exact account.signalled queue hears
  stored := fun d member => (account.stored d member).mono grown

/-- Once no token is missing, all dependents have been heard from. -/
theorem complete (account : Account s st n 0 heard) (consistent : n.Consistent) :
    ∀ d ∈ n.dependents, s.Stored st.log d := by
  intro d member
  obtain ⟨queue, hears⟩ := consistent.hears (List.ne_nil_of_mem member)
  have account' := account.signalled queue (hears ▸ List.mem_singleton_self queue)
  have subset : heard.Subperm n.dependents :=
    ((List.sublist_append_left _ _).subperm.trans account'.subperm).trans
      List.filter_sublist.subperm
  have all := subset.perm_of_length_le (Nat.le_of_eq (account.count.symm.trans (Nat.zero_add _)))
  exact account.stored d (all.mem_iff.mpr member)

/-- A token that is taken has been heard. -/
theorem receive {queue : QueueId} {token : Token} {later : List Token}
    (account : Account s st n (left + 1) heard) (hears : n.listens = [queue])
    (first : st.tokensOn queue = token :: later) (now : st'.tokensOn queue = later)
    (signalled : ∀ d ∈ n.dependents, st'.hasSignalled d = st.hasSignalled d)
    (grown : st.log <+: st'.log) (stored : s.Stored st.log token.producer) :
    Account s st' n left (heard ++ [token.producer]) where
  count := by
    have count := account.count
    rw [List.length_append, List.length_singleton]
    omega
  signalled := by
    intro other member
    rw [hears, List.mem_singleton] at member
    have before := account.signalled queue (hears ▸ List.mem_singleton_self queue)
    rw [first, List.map_cons] at before
    rw [member, now, List.filter_congr signalled, List.append_assoc, List.singleton_append]
    exact before
  stored := by
    intro d member
    rcases List.mem_append.mp member with before | own
    · exact (account.stored d before).mono grown
    · exact List.mem_singleton.mp own ▸ stored.mono grown

/-- A dependent that signals adds its token. -/
theorem signal {queue : QueueId} (token : Token) (account : Account s st n left heard)
    (consistent : n.Consistent) (hears : n.listens = [queue])
    (now : st'.tokensOn queue = st.tokensOn queue ++ [token])
    (member : token.producer ∈ n.dependents) (before : st.hasSignalled token.producer = false)
    (signalled : ∀ d, st'.hasSignalled d = (decide (token.producer = d) || st.hasSignalled d))
    (grown : st.log <+: st'.log) : Account s st' n left heard where
  count := account.count
  signalled := by
    intro other inListens
    rw [hears, List.mem_singleton] at inListens
    have perm := account.signalled queue (hears ▸ List.mem_singleton_self queue)
    have added : (n.dependents.filter st'.hasSignalled).Perm
        (n.dependents.filter st.hasSignalled ++ [token.producer]) := by
      refine (List.perm_ext_iff_of_nodup (consistent.distinct.filter _) ?_).mpr fun d => ?_
      · refine List.nodup_append.mpr ⟨consistent.distinct.filter _, List.nodup_singleton _, ?_⟩
        intro d early _ own same
        rw [List.mem_singleton.mp own] at same
        rw [same] at early
        rw [(List.mem_filter.mp early).2] at before
        cases before
      · simp only [List.mem_filter, signalled, Bool.or_eq_true, decide_eq_true_eq, List.mem_append,
          List.mem_singleton]
        constructor
        · rintro ⟨reads, same | early⟩
          · exact .inr same.symm
          · exact .inl ⟨reads, early⟩
        · rintro (⟨reads, early⟩ | rfl)
          · exact ⟨reads, .inr early⟩
          · exact ⟨member, .inl rfl⟩
    rw [inListens, now, List.map_append, ← List.append_assoc]
    exact (perm.append_right _).trans added.symm
  stored := fun d inHeard => (account.stored d inHeard).mono grown

end Account

namespace Task

variable {queue : QueueId}

/-- The tokens after a step: one is taken, some are posted, or they are as before. -/
theorem tokensOn_cases (task : Task s st id old new st') :
    ((∀ queue, st'.tokensOn queue = st.tokensOn queue)
        ∧ new.hasSignalled = old.hasSignalled ∧ (∀ missing, new ≠ .waiting missing))
      ∨ (∃ queue count rest token later, old = .waiting ((queue, count) :: rest)
        ∧ st.tokensOn queue = token :: later
        ∧ (∀ other, st'.tokensOn other = if queue = other then later else st.tokensOn other)
        ∧ (token.completed = true
            ∧ new = .waiting (if count ≤ 1 then rest else (queue, count - 1) :: rest)
          ∨ new = .returned (.error .cancelled)))
      ∨ ∃ n outcome, s.node? id = some n ∧ old = .returned outcome ∧ new = .signalled outcome
        ∧ ∀ queue, st'.tokensOn queue = (st.post ⟨id, outcome.isOk⟩ n.broadcasts).tokensOn queue := by
  have taken {queue : QueueId} {later : List Token} (other : QueueId) :
      ((st.tokens.insert queue later).find? other).getD []
        = if queue = other then later else st.tokensOn other := by
    rw [AscendingMap.find?_insert]
    split
    · rfl
    · rfl
  cases task with
  | receives first completed =>
    exact .inr (.inl ⟨_, _, _, _, _, rfl, first, taken, .inl ⟨completed, rfl⟩⟩)
  | disappointed first failed =>
    exact .inr (.inl ⟨_, _, _, _, _, rfl, first, taken, .inr rfl⟩)
  | signals found => exact .inr (.inr ⟨_, _, found, rfl, rfl, fun _ => rfl⟩)
  | joins =>
    dsimp only
    split
    · exact .inl ⟨fun _ => rfl, rfl, by simp⟩
    · exact .inl ⟨fun _ => rfl, rfl, by simp⟩
  | advances =>
    rw [publish_eq]
    exact .inl ⟨fun _ => rfl, rfl, by simp⟩
  | asks => exact .inl ⟨fun queue => by simp [RunState.tokensOn], rfl, by simp⟩
  | mute => exact .inl ⟨fun queue => by simp [RunState.tokensOn], rfl, by simp⟩
  | _ => exact .inl ⟨fun _ => rfl, rfl, by simp⟩

theorem hasSignalled_eq (task : Task s st id old new st') :
    st'.hasSignalled d = if id = d then new.hasSignalled else st.hasSignalled d := by
  unfold RunState.hasSignalled
  rw [task.phase?_eq]
  split
  · rfl
  · rfl

theorem hasSignalled_of_same (task : Task s st id old new st') (now : st.phase? id = some old)
    (same : new.hasSignalled = old.hasSignalled) : st'.hasSignalled d = st.hasSignalled d := by
  rw [task.hasSignalled_eq, same]
  split
  · rename_i own
    rw [← own, RunState.hasSignalled, now]
    rfl
  · rfl

/-- A task has a permit because it had one, or because it waited for nothing else. -/
theorem holdsPermit (task : Task s st id old new st') (holds : new.holdsPermit = true) :
    old = .waiting [] ∨ old.holdsPermit = true := by
  cases task with
  | acquires => exact .inl rfl
  | asks => exact .inr rfl
  | stores => exact .inr rfl
  | advances => exact .inr rfl
  | _ => cases holds

end Task

section Preserving

variable (sound : s.plan.Sound [s.root]) (accounted : s.Accounted st)
  (now : st.phase? id = some old) (task : Task s st id old new st')

include sound accounted now task

private theorem sent_of_task {queue : QueueId} {token : Token} (member : token ∈ st'.tokensOn queue)
    (completed : token.completed = true) : s.Stored st'.log token.producer := by
  have before (early : token ∈ st.tokensOn queue) : s.Stored st'.log token.producer :=
    (accounted.sent early completed).mono task.log_prefix
  rcases task.tokensOn_cases with ⟨same, _⟩ | ⟨own, _, _, first, later, _, tokens, after, _⟩
    | ⟨m, outcome, there, rfl, _, after⟩
  · exact before (same queue ▸ member)
  · rw [after] at member
    split at member
    · rename_i same
      subst same
      exact before (tokens ▸ List.mem_cons_of_mem first member)
    · exact before member
  · rw [after] at member
    by_cases signals : queue ∈ m.broadcasts
    · obtain ⟨below, only⟩ := sound.broadcasts_eq there signals
      rw [only, RunState.tokensOn_post_singleton] at member
      rcases List.mem_append.mp member with early | own
      · exact before early
      · rw [List.mem_singleton.mp own] at completed ⊢
        cases outcome with
        | error e => cases completed
        | ok report => exact (accounted.ended now (by simpa using below)).mono task.log_prefix
    · rw [RunState.tokensOn_post_of_not_mem signals] at member
      exact before member

private theorem ended_of_task (prepared : s.Prepared st) {other : NodeId} {report : Report}
    (there : st'.phase? other = some (.returned (.ok report))) (below : other ≠ s.root) :
    s.Stored st'.log other := by
  rw [task.phase?_eq] at there
  split at there
  · rename_i same
    subst same
    obtain ⟨n, found, ready⟩ := prepared id old now
    have named : n.id = id := sound.named found
    cases there
    cases task with
    | concludes _ atRoot => exact absurd atRoot below
    | finishes =>
      obtain ⟨turn, _, asked⟩ := ready
      cases asked with
      | answer atRoot => exact absurd (named.symm.trans atRoot) below
      | whole _ => exact ⟨n, _, found, List.mem_append_right _ List.mem_cons_self⟩
    | saves =>
      obtain ⟨turn, _, asked⟩ := ready
      cases asked with
      | store => exact ⟨n, _, found, List.mem_append_right _ List.mem_cons_self⟩
  · exact (accounted.ended there below).mono task.log_prefix

/-- A task that goes on waiting has heard from one more of its dependents. -/
private theorem own_waiting_of_task {missing : List (QueueId × Nat)} (waits : new = .waiting missing)
    (found : s.node? id = some n) :
    ∃ left heard, missing = n.outstanding left ∧ Account s st' n left heard := by
  have consistent := sound.consistent found
  rcases task.tokensOn_cases with ⟨_, _, other⟩
    | ⟨queue, count, rest, token, later, rfl, tokens, after, outcome⟩ | ⟨_, _, _, _, other, _⟩
  · exact absurd waits (other missing)
  · subst waits
    obtain ⟨completed, remaining⟩ := outcome.resolve_right nofun
    obtain ⟨left, heard, counted, account⟩ := accounted.waiting now found
    obtain ⟨some, rfl, rfl, hears⟩ := consistent.of_outstanding_cons account.atMost counted
    obtain ⟨left, rfl⟩ := Nat.exists_eq_succ_of_ne_zero some
    refine ⟨left, heard ++ [token.producer], ?_, ?_⟩
    · cases remaining
      unfold Node.outstanding
      rw [hears]
      by_cases last : left = 0
      · simp [last]
      · simp [last]
    · refine account.receive hears tokens ((after queue).trans (if_pos rfl)) ?_ task.log_prefix ?_
      · exact fun d _ => task.hasSignalled_of_same now rfl
      · exact accounted.sent (tokens ▸ List.mem_cons_self) completed
  · cases waits.symm.trans other

/-- The account of a task stays right when another one does something. -/
private theorem other_waiting_of_task (prepared : s.Prepared st) {other : NodeId} {left : Nat}
    {heard : List NodeId} (different : id ≠ other) (found : s.node? other = some n)
    (account : Account s st n left heard) : Account s st' n left heard := by
  have consistent := sound.consistent found
  rcases task.tokensOn_cases with ⟨same, quiet, _⟩ | ⟨queue, _, _, token, later, rfl, _, after, outcome⟩
    | ⟨m, outcome, found', rfl, rfl, after⟩
  · refine account.keep (fun queue _ => same queue) (fun d _ => ?_) task.log_prefix
    exact task.hasSignalled_of_same now quiet
  · refine account.keep (fun queue' hears => (after queue').trans (if_neg ?_)) (fun d _ => ?_)
      task.log_prefix
    · -- No two tasks take tokens from one queue.
      rintro rfl
      obtain ⟨m, there', _⟩ := prepared id _ now
      obtain ⟨left', heard', counted', account'⟩ := accounted.waiting now there'
      obtain ⟨_, _, _, hears'⟩ :=
        (sound.consistent there').of_outstanding_cons account'.atMost counted'
      exact different (sound.queues there' found (hears' ▸ List.mem_singleton_self _) hears)
    · refine task.hasSignalled_of_same now ?_
      rcases outcome with ⟨_, rfl⟩ | rfl
      · rfl
      · rfl
  · by_cases reads : id ∈ n.dependents
    · obtain ⟨queue, hears⟩ := consistent.hears (List.ne_nil_of_mem reads)
      obtain ⟨m', there', _, _, heard⟩ := sound.reads found reads
      cases found'.symm.trans there'
      refine account.signal ⟨id, outcome.isOk⟩ consistent hears ?_ reads ?_ (fun d => ?_)
        task.log_prefix
      · rw [after, heard, hears]
        exact RunState.tokensOn_post_singleton
      · simp [RunState.hasSignalled, now, Phase.hasSignalled]
      · rw [task.hasSignalled_eq]
        by_cases same : id = d
        · simp [same, Phase.hasSignalled]
        · simp [same]
    · refine account.keep (fun queue hears => ?_) (fun d member => ?_) task.log_prefix
      · refine (after queue).trans (RunState.tokensOn_post_of_not_mem fun signals => reads ?_)
        exact sound.mem_dependents_of_broadcast found found' hears signals
      · rw [task.hasSignalled_eq, if_neg]
        rintro rfl
        exact reads member

private theorem waiting_of_task (prepared : s.Prepared st) {other : NodeId}
    {missing : List (QueueId × Nat)} (there : st'.phase? other = some (.waiting missing))
    (found : s.node? other = some n) :
    ∃ left heard, missing = n.outstanding left ∧ Account s st' n left heard := by
  rw [task.phase?_eq] at there
  split at there
  · rename_i same
    subst same
    exact own_waiting_of_task sound accounted now task (Option.some.inj there) found
  · rename_i different
    obtain ⟨left, heard, counted, account⟩ := accounted.waiting there found
    exact ⟨left, heard, counted,
      other_waiting_of_task sound accounted now task prepared different found account⟩

private theorem holding_of_task {other : NodeId} {phase : Phase}
    (there : st'.phase? other = some phase) (holds : phase.holdsPermit = true)
    (found : s.node? other = some n) (d) (member : d ∈ n.dependents) : s.Stored st'.log d := by
  refine Stored.mono ?_ task.log_prefix
  rw [task.phase?_eq] at there
  split at there
  · rename_i same
    subst same
    cases there
    rcases task.holdsPermit holds with rfl | held
    · obtain ⟨left, heard, counted, account⟩ := accounted.waiting now found
      have consistent := sound.consistent found
      rcases consistent.outstanding_eq account.atMost with ⟨rfl, _⟩ | ⟨_, _, _, single⟩
      · exact account.complete consistent d member
      · cases counted.trans single
    · exact accounted.holding now held found d member
  · exact accounted.holding there holds found d member

end Preserving

/-- A step that leaves phases and tokens alone keeps the accounts. -/
private theorem Accounted.keep (accounted : s.Accounted st) (phases : st'.phases = st.phases)
    (tokens : st'.tokens = st.tokens) (grown : st.log <+: st'.log) : s.Accounted st' := by
  have phase (id) : st'.phase? id = st.phase? id := congrArg (AscendingMap.find? · id) phases
  have queued (queue) : st'.tokensOn queue = st.tokensOn queue :=
    congrArg (fun tokens => (AscendingMap.find? tokens queue).getD []) tokens
  constructor
  case sent =>
    intro queue token member completed
    exact (accounted.sent (queued queue ▸ member) completed).mono grown
  case ended =>
    intro id report there below
    exact (accounted.ended (phase id ▸ there) below).mono grown
  case waiting =>
    intro id n missing there found
    obtain ⟨left, heard, counted, account⟩ := accounted.waiting (phase id ▸ there) found
    refine ⟨left, heard, counted, account.keep (fun queue _ => queued queue) (fun d _ => ?_) grown⟩
    exact congrArg (Option.any Phase.hasSignalled) (phase d)
  case holding =>
    intro id n phase' there holds found d member
    exact (accounted.holding (phase id ▸ there) holds found d member).mono grown

/-- In every state of a run the accounts are right. -/
theorem Reached.accounted (sound : s.plan.Sound [s.root]) (reached : s.Reached st) :
    s.Accounted st := by
  induction reached with
  | start permits level =>
    have waits {id phase} (there : (s.initial permits level).phase? id = some phase) :
        ∃ n, s.node? id = some n ∧ phase = .waiting (missingTokens s.plan n) := by
      rw [phase?_initial sound.paired] at there
      obtain ⟨n, found, same⟩ := Option.map_eq_some_iff.mp there
      exact ⟨n, found, same.symm⟩
    constructor
    case sent => exact fun member => nomatch member
    case ended =>
      intro id report there
      obtain ⟨n, _, same⟩ := waits there
      cases same
    case waiting =>
      intro id n missing there found
      obtain ⟨n', found', same⟩ := waits there
      cases found.symm.trans found'
      cases same
      refine ⟨n.dependents.length, [], sound.missingTokens_eq found, rfl, fun queue _ => ?_, ?_⟩
      · have silent : n.dependents.filter (s.initial permits level).hasSignalled = [] := by
          refine List.filter_eq_nil_iff.mpr fun d _ => ?_
          rw [RunState.hasSignalled, phase?_initial sound.paired]
          cases s.node? d with
          | none => exact Bool.false_ne_true
          | some m => exact Bool.false_ne_true
        rw [silent]
        exact List.Perm.refl _
      · exact fun _ member => nomatch member
    case holding =>
      intro id n phase there holds
      obtain ⟨n', _, rfl⟩ := waits there
      cases holds
  | step before stepped ih =>
    have prepared := before.prepared sound.paired
    rcases step_cases sound.named stepped with ⟨id, old, new, now, task⟩ | ⟨level, _, rfl⟩
      | ⟨_, _, _, rfl⟩
    · exact {
        sent := sent_of_task sound ih now task
        ended := ended_of_task sound ih now task prepared
        waiting := waiting_of_task sound ih now task prepared
        holding := fun there holds found => holding_of_task sound ih now task there holds found }
    · exact ih.keep rfl rfl (List.prefix_append _ _)
    · exact ih.keep rfl rfl ((List.prefix_append _ _).trans (List.prefix_append _ _))

end Setting

end ApproxQuery
