import Dcn.Server.Handling
import Mathlib.Data.Fintype.Basic

/-! The order in which several workers send packets on.

A worker keeps the packet it popped while other workers pop and send on the
later ones, so the copies of a conversation can change places between two
queues that keep their order.
-/

set_option autoImplicit false

namespace Dcn

def HandlerPc.pending : HandlerPc → Bool
  | .session | .lookup | .store | .route | .answer (.unicast _) | .forward _ => true
  | .answer _ | .measure | .broadcast _ _ _ | .notify => false

def HandlerPc.forwarding : HandlerPc → Bool
  | .forward _ => true
  | _ => false

def SameConversation (cli : Conn) (pack : Packet) (cli' : Conn) (pack' : Packet) : Prop :=
  cli = cli' ∧ pack.fromUid = pack'.fromUid ∧ pack.toUid = pack'.toUid

instance (cli : Conn) (pack : Packet) (cli' : Conn) (pack' : Packet) :
    Decidable (SameConversation cli pack cli' pack') := inferInstanceAs (Decidable (_ ∧ _ ∧ _))

namespace Relay

variable {ω : Type} [DecidableEq ω]

/-- The copies of each conversation were pushed in the order in which their
packets were framed. -/
def Ordered (s : Relay ω) : Prop :=
  s.forwarded.Pairwise fun f g => SameConversation f.cli f.pack g.cli g.pack → f.stamp < g.stamp

/-- A worker sends a packet on while no other worker has an earlier one of the
conversation still to send on. -/
def InTurn (s : Relay ω) : RelayEvent ω → Prop
  | .work t _ _ => ∀ h ∈ s.worker t, h.pc.forwarding = true → ∀ u, ∀ g ∈ s.worker u,
      g.pc.pending = true → SameConversation g.cli g.pack h.cli h.pack → h.stamp ≤ g.stamp
  | _ => True

instance [Fintype ω] (s : Relay ω) : DecidablePred s.InTurn
  | .work t _ _ => inferInstanceAs (Decidable (∀ h ∈ s.worker t, h.pc.forwarding = true → ∀ u, ∀ g ∈ s.worker u,
      g.pc.pending = true → SameConversation g.cli g.pack h.cli h.pack → h.stamp ≤ g.stamp))
  | .loop _ | .pop _ _ _ => .isTrue trivial

/-- Stamps grow along every read queue, and what a worker holds or has sent on
is older than what is still queued; what it may still send on is younger than
all that was sent on in its conversation. -/
structure Sequenced (s : Relay ω) : Prop where
  queued : ∀ cli, (s.stamps cli).Pairwise (· < ·) ∧ ∀ m ∈ s.stamps cli, m < s.clock
  held : ∀ t h, s.worker t = some h → h.stamp < s.clock ∧ ∀ m ∈ s.stamps h.cli, h.stamp < m
  distinct : ∀ t h u g, s.worker t = some h → s.worker u = some g → h.cli = g.cli → h.stamp = g.stamp → t = u
  sent : ∀ f ∈ s.forwarded, f.stamp < s.clock ∧ ∀ m ∈ s.stamps f.cli, f.stamp < m
  behind : ∀ f ∈ s.forwarded, ∀ t h, s.worker t = some h → h.pc.pending = true →
    SameConversation f.cli f.pack h.cli h.pack → f.stamp < h.stamp
  ordered : s.Ordered

section Steps

variable {s s' : Relay ω} {t : ω} {h : Handling}

omit [DecidableEq ω] in
theorem Sequenced.server (sequenced : s.Sequenced) (server : Server) : { s with server := server }.Sequenced :=
  ⟨sequenced.queued, sequenced.held, sequenced.distinct, sequenced.sent, sequenced.behind, sequenced.ordered⟩

theorem held_update {held : Option Handling} {u : ω} {g : Handling}
    (there : Function.update s.worker t held u = some g) :
    u = t ∧ held = some g ∨ u ≠ t ∧ s.worker u = some g := by
  by_cases same : u = t
  · subst same
    rw [Function.update_self] at there
    exact .inl ⟨rfl, there⟩
  · rw [Function.update_of_ne same] at there
    exact .inr ⟨same, there⟩

omit [DecidableEq ω] in
theorem stamps_fewer {cli : Conn} {left : List Nat} (fewer : ∀ m ∈ left, m ∈ s.stamps cli) :
    ∀ c, ∀ m ∈ Function.update s.stamps cli left c, m ∈ s.stamps c := by
  intro c m member
  by_cases same : c = cli
  · subst same
    rw [Function.update_self] at member
    exact fewer m member
  · rwa [Function.update_of_ne same] at member

theorem Sequenced.goto (sequenced : s.Sequenced) (here : s.worker t = some h) {pc : HandlerPc}
    (before : pc.pending = true → h.pc.pending = true) : (s.goto t h pc).Sequenced := by
  have known : ∀ u g, (s.goto t h pc).worker u = some g → ∃ g', s.worker u = some g' ∧ g.cli = g'.cli ∧
      g.stamp = g'.stamp ∧ g.pack = g'.pack ∧ (g.pc.pending = true → g'.pc.pending = true) := by
    intro u g there
    rcases held_update there with ⟨same, isHeld⟩ | ⟨-, was⟩
    · subst same
      cases isHeld
      exact ⟨h, here, rfl, rfl, rfl, before⟩
    · exact ⟨g, was, rfl, rfl, rfl, id⟩
  refine ⟨sequenced.queued, fun u g there => ?_, fun u g v k there yonder conn stamp => ?_, sequenced.sent,
    fun f sent u g there pending conversation => ?_, sequenced.ordered⟩
  · obtain ⟨g', was, cli, stamp, _, _⟩ := known u g there
    rw [cli, stamp]
    exact sequenced.held u g' was
  · obtain ⟨g', was, cli, stamp', _, _⟩ := known u g there
    obtain ⟨k', were, cli', stamp'', _, _⟩ := known v k yonder
    exact sequenced.distinct u g' v k' was were (by rw [← cli, ← cli', conn]) (by rw [← stamp', ← stamp'', stamp])
  · obtain ⟨g', was, cli, stamp, pack, older⟩ := known u g there
    rw [cli, pack] at conversation
    rw [stamp]
    exact sequenced.behind f sent u g' was (older pending) conversation

theorem Sequenced.leave (sequenced : s.Sequenced) (t : ω) : (s.leave t).Sequenced := by
  have known : ∀ u g, (s.leave t).worker u = some g → s.worker u = some g := by
    intro u g there
    rcases held_update there with ⟨-, isHeld⟩ | ⟨-, was⟩
    · cases isHeld
    · exact was
  exact ⟨sequenced.queued, fun u g there => sequenced.held u g (known u g there),
    fun u g v k there yonder => sequenced.distinct u g v k (known u g there) (known v k yonder), sequenced.sent,
    fun f sent u g there => sequenced.behind f sent u g (known u g there), sequenced.ordered⟩

theorem Sequenced.answered (sequenced : s.Sequenced) (here : s.worker t = some h) {exit : Exit}
    (pc : h.pc = .answer exit) : (s.answered t h exit).Sequenced := by
  cases exit with
  | declined => exact sequenced.leave t
  | ping => exact sequenced.goto here fun pending => by cases pending
  | unknown => exact sequenced.goto here fun pending => by cases pending
  | broadcast => exact sequenced.goto here fun pending => by cases pending
  | unicast toCli => exact sequenced.goto here fun _ => by rw [pc]; rfl

theorem Sequenced.forward (sequenced : s.Sequenced) (here : s.worker t = some h) (pending : h.pc.pending = true)
    (turn : ∀ u g, s.worker u = some g → g.pc.pending = true → SameConversation g.cli g.pack h.cli h.pack →
      h.stamp ≤ g.stamp) (toCli : Conn) :
    ({ s with forwarded := s.forwarded ++ [h.copy toCli] }.goto t h .notify).Sequenced := by
  have moved : (s.goto t h .notify).Sequenced := sequenced.goto here fun pending => by cases pending
  refine ⟨moved.queued, moved.held, moved.distinct, fun f member => ?_,
    fun f member u g there may conversation => ?_, ?_⟩
  · rcases List.mem_append.mp member with old | new
    · exact sequenced.sent f old
    · rw [List.mem_singleton.mp new]
      exact sequenced.held t h here
  · rcases List.mem_append.mp member with old | new
    · exact moved.behind f old u g there may conversation
    · rw [List.mem_singleton.mp new] at conversation ⊢
      -- Another worker with a packet of the conversation has a younger one.
      rcases held_update there with ⟨-, isHeld⟩ | ⟨other, there⟩
      · cases isHeld
        cases may
      · obtain ⟨cli, fromUid, toUid⟩ := conversation
        have later := turn u g there may ⟨cli.symm, fromUid.symm, toUid.symm⟩
        refine Nat.lt_of_le_of_ne later fun same => other ?_
        exact sequenced.distinct u g t h there here cli.symm same.symm
  · refine List.pairwise_append.mpr ⟨sequenced.ordered, List.pairwise_singleton _ _, fun f old g new => ?_⟩
    rw [List.mem_singleton.mp new]
    exact sequenced.behind f old t h here pending

theorem sequenced_work (sequenced : s.Sequenced) {locals : Locals} {ok : Conn → Bool}
    (turn : s.InTurn (.work t locals ok)) : (s.work t locals ok).Sequenced := by
  cases here : s.worker t with
  | none => simpa only [work, here] using sequenced
  | some h =>
    cases pc : h.pc with
    | session =>
      simp only [work, here, pc]
      refine Sequenced.goto (sequenced.server _) ?_ fun _ => by rw [pc]; rfl
      exact here
    | lookup =>
      simp only [work, here, pc]
      exact sequenced.goto here fun _ => by rw [pc]; rfl
    | store =>
      simp only [work, here, pc]
      refine Sequenced.goto (sequenced.server _) ?_ fun _ => by rw [pc]; rfl
      exact here
    | route =>
      simp only [work, here, pc]
      exact sequenced.goto here fun _ => by rw [pc]; rfl
    | answer exit =>
      simp only [work, here, pc]
      refine Sequenced.answered (sequenced.server _) ?_ pc
      exact here
    | forward toCli =>
      simp only [work, here, pc]
      split
      · refine Sequenced.forward (sequenced.server _) ?_ (by rw [pc]; rfl) ?_ toCli
        · exact here
        · exact turn h here (by rw [pc]; rfl)
      · exact sequenced.goto here fun pending => by cases pending
    | measure =>
      simp only [work, here, pc]
      exact sequenced.goto here fun pending => by cases pending
    | broadcast i len effects =>
      cases effects with
      | nil =>
        simp only [work, here, pc]
        split
        · exact sequenced.goto here fun pending => by cases pending
        · exact sequenced.goto here fun pending => by cases pending
      | cons effect rest =>
        simp only [work, here, pc]
        refine Sequenced.goto (sequenced.server _) ?_ fun pending => by cases pending
        exact here
    | notify =>
      simp only [work, here, pc]
      exact (sequenced.server _).leave t

omit [DecidableEq ω] in
theorem Sequenced.popped (sequenced : s.Sequenced) (cli : Conn) :
    ((s.stamps cli).head?.getD s.clock < s.clock + 1 ∧
        ∀ m ∈ (s.stamps cli).tail, (s.stamps cli).head?.getD s.clock < m) ∧
      ∀ n, (n < s.clock ∧ ∀ m ∈ s.stamps cli, n < m) → n < (s.stamps cli).head?.getD s.clock := by
  obtain ⟨increasing, bounded⟩ := sequenced.queued cli
  cases queue : s.stamps cli with
  | nil =>
    refine ⟨by simp, ?_⟩
    rintro n ⟨before, -⟩
    exact before
  | cons m rest =>
    rw [queue] at increasing bounded
    have first := bounded m List.mem_cons_self
    simp only [List.head?_cons, Option.getD_some, List.tail_cons]
    refine ⟨⟨by omega, (List.pairwise_cons.mp increasing).1⟩, ?_⟩
    rintro n ⟨-, older⟩
    exact older m List.mem_cons_self

theorem sequenced_pop (sequenced : s.Sequenced) (t : ω) (cli : Conn) (locals : Locals) :
    (s.pop t cli locals).Sequenced := by
  simp only [pop]
  split
  · next pack idle next =>
    obtain ⟨taken, younger⟩ := sequenced.popped cli
    have shrinks : ∀ c, ∀ m ∈ Function.update s.stamps cli (s.stamps cli).tail c, m ∈ s.stamps c :=
      stamps_fewer fun m member => List.mem_of_mem_tail member
    refine ⟨fun c => ⟨?_, fun m member => ?_⟩, fun u g there => ?_, fun u g v k there yonder conn stamp => ?_,
      fun f member => ?_, fun f member u g there may conversation => ?_, sequenced.ordered⟩
    · by_cases same : c = cli
      · subst same
        simpa only [Function.update_self] using (sequenced.queued c).1.tail
      · simpa only [Function.update_of_ne same] using (sequenced.queued c).1
    · exact Nat.lt_succ_of_lt ((sequenced.queued c).2 m (shrinks c m member))
    · rcases held_update there with ⟨-, isHeld⟩ | ⟨-, was⟩
      · cases isHeld
        simpa only [Function.update_self] using taken
      · obtain ⟨before, older⟩ := sequenced.held u g was
        exact ⟨Nat.lt_succ_of_lt before, fun m member => older m (shrinks g.cli m member)⟩
    · -- What another worker holds of the connection was popped before.
      have fresh : ∀ w r, s.worker w = some r → r.cli = cli → r.stamp < (s.stamps cli).head?.getD s.clock := by
        rintro w r holds rfl
        exact younger r.stamp (sequenced.held w r holds)
      rcases held_update there with ⟨first, isHeld⟩ | ⟨-, was⟩ <;>
        rcases held_update yonder with ⟨second, isHeld'⟩ | ⟨-, were⟩
      · rw [first, second]
      · cases isHeld
        exact absurd stamp.symm (Nat.ne_of_lt (fresh v k were conn.symm))
      · cases isHeld'
        exact absurd stamp (Nat.ne_of_lt (fresh u g was conn))
      · exact sequenced.distinct u g v k was were conn stamp
    · obtain ⟨before, older⟩ := sequenced.sent f member
      exact ⟨Nat.lt_succ_of_lt before, fun m queued => older m (shrinks f.cli m queued)⟩
    · rcases held_update there with ⟨-, isHeld⟩ | ⟨-, was⟩
      · cases isHeld
        have conn : f.cli = cli := conversation.1
        exact younger f.stamp (conn ▸ sequenced.sent f member)
      · exact sequenced.behind f member u g was may conversation
  · exact sequenced

omit [DecidableEq ω] in
theorem sequenced_loop (sequenced : s.Sequenced) (event : ServerEvent) : (s.loop event).Sequenced := by
  cases event with
  | work cli locals ok => exact sequenced
  | epollout cli aw modOk => exact sequenced.server _
  | disconnect cli delOk => exact sequenced.server _
  | accept cli fd ip port =>
    simp only [loop]
    split
    · exact sequenced
    · -- A new connection has nothing queued.
      have fewer : ∀ c, ∀ m ∈ Function.update s.stamps cli [] c, m ∈ s.stamps c :=
        stamps_fewer fun m member => by cases member
      refine ⟨fun c => ⟨?_, fun m member => (sequenced.queued c).2 m (fewer c m member)⟩,
        fun t h here => ⟨(sequenced.held t h here).1, fun m member => (sequenced.held t h here).2 m (fewer _ m member)⟩,
        sequenced.distinct,
        fun f sent => ⟨(sequenced.sent f sent).1, fun m member => (sequenced.sent f sent).2 m (fewer _ m member)⟩,
        sequenced.behind, sequenced.ordered⟩
      by_cases same : c = cli
      · subst same
        simp only [Function.update_self, List.Pairwise.nil]
      · simpa only [Function.update_of_ne same] using (sequenced.queued c).1
  | frame cli block =>
    simp only [loop]
    split
    · -- The new stamp is younger than all there are.
      have grows : ∀ c, ∀ m ∈ Function.update s.stamps cli (s.stamps cli ++ [s.clock]) c,
          m ∈ s.stamps c ∨ m = s.clock := by
        intro c m member
        by_cases same : c = cli
        · subst same
          simpa only [Function.update_self, List.mem_append, List.mem_singleton] using member
        · rw [Function.update_of_ne same] at member
          exact .inl member
      have above : ∀ c n, (n < s.clock ∧ ∀ m ∈ s.stamps c, n < m) → n < s.clock + 1 ∧
          ∀ m ∈ Function.update s.stamps cli (s.stamps cli ++ [s.clock]) c, n < m := by
        rintro c n ⟨before, older⟩
        refine ⟨Nat.lt_succ_of_lt before, fun m member => ?_⟩
        rcases grows c m member with old | new
        · exact older m old
        · exact new ▸ before
      refine ⟨fun c => ⟨?_, fun m member => ?_⟩, fun t h here => above _ _ (sequenced.held t h here),
        sequenced.distinct, fun f sent => above _ _ (sequenced.sent f sent), sequenced.behind, sequenced.ordered⟩
      · obtain ⟨increasing, bounded⟩ := sequenced.queued c
        by_cases same : c = cli
        · subst same
          simp only [Function.update_self]
          refine List.pairwise_append.mpr ⟨increasing, List.pairwise_singleton _ _, fun m old n new => ?_⟩
          rw [List.mem_singleton.mp new]
          exact bounded m old
        · simpa only [Function.update_of_ne same] using increasing
      · rcases grows c m member with old | new
        · exact Nat.lt_succ_of_lt ((sequenced.queued c).2 m old)
        · exact new ▸ Nat.lt_succ_self _
    · exact sequenced

theorem sequenced_step (s : Relay ω) (e : RelayEvent ω) (sequenced : s.Sequenced) (turn : s.InTurn e) :
    (s.step e).Sequenced := by
  cases e with
  | loop event => exact sequenced_loop sequenced event
  | pop t cli locals => exact sequenced_pop sequenced t cli locals
  | work t locals ok => exact sequenced_work sequenced turn

end Steps

omit [DecidableEq ω] in
theorem sequenced_init (ω : Type) : (init ω).Sequenced where
  queued := fun cli => ⟨List.Pairwise.nil, fun m member => by cases member⟩
  held := fun t h here => by cases here
  distinct := fun t h u g here => by cases here
  sent := fun f member => by cases member
  behind := fun f member => by cases member
  ordered := List.Pairwise.nil

theorem sequenced_throughout {events : List (RelayEvent ω)} (turns : Runs.Along step InTurn (init ω) events) :
    Runs.Throughout step Sequenced (init ω) events :=
  Runs.throughout_of_preserved sequenced_step (sequenced_init ω) turns

/-- Where no worker overtakes an earlier packet of a conversation, the relay
keeps the order of every conversation. -/
theorem ordered_of_inTurn (events : List (RelayEvent ω)) (turns : Runs.Along step InTurn (init ω) events) :
    Runs.Throughout step Ordered (init ω) events :=
  (sequenced_throughout turns).mono fun _ sequenced => sequenced.ordered

/-- A pool with one worker keeps the order in every run. -/
theorem ordered_single [Subsingleton ω] (events : List (RelayEvent ω)) :
    Runs.Throughout step Ordered (init ω) events := by
  have turns : Runs.Along step InTurn (init ω) events := by
    refine Runs.Along.mono ?_ (Runs.along_true (init ω) events)
    intro s e _
    cases e with
    | work t locals ok =>
      intro h here _ u g there _ _
      rw [Subsingleton.elim u t, Option.mem_def.mp here] at there
      cases there
      exact Nat.le_refl _
    | _ => trivial
  exact (sequenced_throughout turns).mono fun _ sequenced => sequenced.ordered

def twoRequests : List (RelayEvent Bool) :=
  [.loop (.accept 1 5 "127.0.0.1" 40000), .loop (.accept 2 6 "127.0.0.1" 40001),
   .loop (.frame 2 (packetSerial { packetInit [] 8 0 1 with packtype := .ping })), .pop false 2 .blank] ++
    List.replicate 6 (.work false .blank fun _ => true) ++
  [.loop (.frame 1 (packetSerial (packetInit [1] 7 8 1))), .loop (.frame 1 (packetSerial (packetInit [2] 7 8 2))),
   .pop false 1 .blank, .pop true 1 .blank]

def inTurn : List (RelayEvent Bool) :=
  twoRequests ++ List.replicate 7 (.work false .blank fun _ => true) ++
    List.replicate 6 (.work true .blank fun _ => true)

theorem ordered_inTurn : Runs.Throughout step Ordered (init Bool) inTurn :=
  ordered_of_inTurn inTurn (by decide)

/-- The worker with the second request goes on before the other. -/
def overtaking : List (RelayEvent Bool) :=
  twoRequests ++ List.replicate 7 (.work true .blank fun _ => true) ++
    List.replicate 6 (.work false .blank fun _ => true)

theorem overtaking_reorders : ¬Runs.Throughout step Ordered (init Bool) overtaking := by
  intro always
  have last := always.last
  revert last
  unfold Ordered
  decide

end Relay

end Dcn
