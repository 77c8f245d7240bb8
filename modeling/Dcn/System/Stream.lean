import Dcn.Net.Framing
import Dcn.Net.Writing

/-! One connection down to its bytes, with run_server at one end and run_client
at the other.

Each direction is a lane: the write queue of one end, the bytes that its socket
accepted and that are not read yet, and the accumulator and read queue of the
other end. Blocks are whole in the queues and cut anywhere in between. An
operation on a queue is one step, the queue_free behind the pop of the last block
included. What was pushed and what was popped at either end is kept beside the
connection.
-/

set_option autoImplicit false

namespace Dcn

structure Connection where
  server : Client
  client : ClientLoop
  up : Block
  down : Block
  deriving DecidableEq, Repr

/-- A request or an answer is pushed, an end writes or reads some of the bytes
that are there, a handler pops. -/
inductive Transfer where
  | request (block : Block)
  | answer (block : Block)
  | pollout (aw : WriteResult)
  | epollout (aw : WriteResult) (modOk : Bool)
  | pollin (n : Nat)
  | epollin (n : Nat)
  | onMessage
  | work
  deriving DecidableEq, Repr

/-- Cutting the packets off an accumulator takes no more turns than it has
bytes, unless it takes no end. -/
def intakeFuel (acc chunk : Block) : Nat := acc.length + chunk.length + 1

namespace Connection

def start (fd : Int) (ip : String) (port : UInt16) : Connection :=
  ⟨acceptClient fd ip port, ⟨queueInit, queueInit, 0, [], 0⟩, [], []⟩

end Connection

structure Traffic where
  conn : Connection
  requested : List Block
  worked : List Block
  answered : List Block
  handled : List Block
  deriving DecidableEq, Repr

namespace Traffic

def start (fd : Int) (ip : String) (port : UInt16) : Traffic := ⟨.start fd ip port, [], [], [], []⟩

def step (t : Traffic) : Transfer → Traffic
  | .request block => { t with
      conn.client.qwrite := pushBlock t.conn.client.qwrite block
      requested := t.requested ++ [block] }
  | .answer block => { t with
      conn.server.writeQ := pushBlock t.conn.server.writeQ block
      answered := t.answered ++ [block] }
  | .pollout aw =>
    let (client, drained) := runClientPollout t.conn.client aw
    { t with conn.client := client, conn.up := t.conn.up ++ drained.accepted }
  | .epollout aw modOk =>
    let (server, drained, _) := runServerEpollout t.conn.server aw modOk
    { t with conn.server := server, conn.down := t.conn.down ++ drained.accepted }
  -- A loop that does not end leaves the connection where it is.
  | .pollin n =>
    match runClientFeed (intakeFuel t.conn.client.acc (t.conn.down.take n)) [t.conn.down.take n] t.conn.client with
    | some client => { t with conn.client := client, conn.down := t.conn.down.drop n }
    | none => t
  | .epollin n =>
    match runServerFeed (intakeFuel t.conn.server.acc (t.conn.up.take n)) [t.conn.up.take n] t.conn.server with
    | some server => { t with conn.server := server, conn.up := t.conn.up.drop n }
    | none => t
  | .onMessage =>
    let (_, block, qread) := popBlock t.conn.client.qread
    { t with conn.client.qread := qread, handled := t.handled ++ block.toList }
  | .work =>
    let (_, block, readQ) := popBlock t.conn.server.readQ
    { t with conn.server.readQ := readQ, worked := t.worked ++ block.toList }

/-- Handlers push packets, and a `write` takes at least one byte where it takes
any, and no more than it was asked to. -/
def Legal (t : Traffic) : Transfer → Prop
  | .request block | .answer block => ∃ pack : Packet, pack.Fits ∧ block = packetSerial pack
  | .pollout (.count n) => 0 < n ∧ ∀ block, peekBlock t.conn.client.qwrite = some block →
      n ≤ block.length - t.conn.client.alrWr
  | .epollout (.count n) _ => 0 < n ∧ ∀ block, peekBlock t.conn.server.writeQ = some block →
      n ≤ block.length - t.conn.server.alrWritten
  | _ => True

def TakesAll (t : Traffic) : Transfer → Prop
  | .pollout (.count n) => ∀ block, peekBlock t.conn.client.qwrite = some block →
      n = block.length - t.conn.client.alrWr
  | .epollout (.count n) _ => ∀ block, peekBlock t.conn.server.writeQ = some block →
      n = block.length - t.conn.server.alrWritten
  | _ => True

end Traffic

/-- What was popped at one end, what is in its queue, the packets in the bytes
in between, and what is in the queue of the other end is what was pushed there. -/
def InLine (pushed popped : List Block) (readQ : Queue) (bytes : Block) (writeQ : Queue) : Prop :=
  ∃ pkts, Framing.Splits bytes pkts [] ∧ popped ++ readQ.blocks ++ pkts ++ writeQ.blocks = pushed

structure Traffic.Faithful (t : Traffic) : Prop where
  up : InLine t.requested t.worked t.conn.server.readQ (t.conn.server.acc ++ t.conn.up) t.conn.client.qwrite
  down : InLine t.answered t.handled t.conn.client.qread (t.conn.client.acc ++ t.conn.down) t.conn.server.writeQ

namespace Framing

variable {acc last pkt rest : Block} {pkts : List Block}

theorem splitPacket_append_rest (cut : splitPacket acc = some (pkt, rest)) : acc = pkt ++ rest := by
  obtain ⟨-, -, rfl, rfl⟩ := splitPacket_eq_some cut
  exact (List.take_append_drop _ acc).symm

theorem Splits.flatten (splits : Splits acc pkts last) : pkts.flatten ++ last = acc := by
  induction splits with
  | stuck stuck => rfl
  | next cut tail ih => rw [List.flatten_cons, List.append_assoc, ih, splitPacket_append_rest cut]

theorem Splits.shrinks (splits : Splits acc pkts last) (cut : splitPacket acc = some (pkt, rest)) : pkt ≠ [] := by
  induction splits with
  | stuck stuck =>
    rw [stuck] at cut
    cases cut
  | next own tail ih =>
    rintro rfl
    have same := splitPacket_append_rest cut
    rw [List.nil_append] at same
    subst same
    rw [own] at cut
    cases cut
    exact ih own rfl

theorem Splits.length_le (splits : Splits acc pkts last) : pkts.length ≤ acc.length := by
  induction splits with
  | stuck stuck => exact Nat.zero_le _
  | @next acc pkt rest last pkts cut tail ih =>
    have filled := (Splits.next cut tail).shrinks cut
    have whole := splitPacket_append_rest cut
    have positive := List.length_pos_iff.mpr filled
    rw [whole, List.length_cons, List.length_append]
    omega

theorem Splits.snoc (splits : Splits acc pkts []) {pack : Packet} (fits : pack.Fits) :
    Splits (acc ++ packetSerial pack) (pkts ++ [packetSerial pack]) [] := by
  generalize ended : ([] : Block) = last at splits
  induction splits with
  | stuck stuck =>
    subst ended
    have whole := splitPacket_serial fits []
    rw [List.append_nil] at whole
    exact .next whole (.stuck stuck)
  | next cut tail ih => exact .next (splitPacket_append _ cut) (ih ended)

theorem feed_single {σ : Type} (part : Loop.Part σ Intake) (fuel : Nat) (chunk : Block) (s : σ) :
    feed part fuel [chunk] s = (Loop.runFuel extractStep fuel (appendAcc (part.get s) chunk)).map (part.put s) := by
  rw [feed, part.runFuel_lift, part.get_put]
  cases Loop.runFuel extractStep fuel (appendAcc (part.get s) chunk) with
  | none => rfl
  | some intake => simp [feed, part.put_put]

end Framing

/-- One direction: the outbox of the end that pushes, the intake of the other,
the bytes in between, and what was pushed and popped. -/
structure Lane where
  outbox : Outbox
  wire : Block
  intake : Intake
  pushed : List Block
  popped : List Block

inductive LaneMove where
  | push (block : Block)
  | write (aw : WriteResult)
  | read (n : Nat)
  | pop
  | idle

namespace Lane

def step (fullWrite : Nat → WriteResult → Int × Nat) (l : Lane) : LaneMove → Lane
  | .push block => { l with outbox.queue := pushBlock l.outbox.queue block, pushed := l.pushed ++ [block] }
  | .write aw =>
    let drained := drain fullWrite l.outbox aw
    { l with outbox := drained.outbox, wire := l.wire ++ drained.accepted }
  | .read n =>
    match Loop.runFuel extractStep (intakeFuel l.intake.acc (l.wire.take n)) (appendAcc l.intake (l.wire.take n)) with
    | some intake => { l with intake := intake, wire := l.wire.drop n }
    | none => l
  | .pop =>
    let (_, block, readQ) := popBlock l.intake.readQ
    { l with intake.readQ := readQ, popped := l.popped ++ block.toList }
  | .idle => l

def Legal (l : Lane) : LaneMove → Prop
  | .push block => ∃ pack : Packet, pack.Fits ∧ block = packetSerial pack
  | .write (.count n) => 0 < n ∧ ∀ block, peekBlock l.outbox.queue = some block → n ≤ block.length - l.outbox.offset
  | _ => True

def TakesAll (l : Lane) : LaneMove → Prop
  | .write (.count n) => ∀ block, peekBlock l.outbox.queue = some block → n = block.length - l.outbox.offset
  | _ => True

def InLine (l : Lane) : Prop := Dcn.InLine l.pushed l.popped l.intake.readQ (l.intake.acc ++ l.wire) l.outbox.queue

/-- What every step keeps: no block is written in part, the blocks that wait are
packets, and the accumulator has no whole packet. -/
structure Settled (l : Lane) : Prop where
  offset : l.outbox.offset = 0
  packets : ∀ block ∈ l.outbox.queue.blocks, ∃ pack : Packet, pack.Fits ∧ block = packetSerial pack
  cut : splitPacket l.intake.acc = none

variable {fullWrite : Nat → WriteResult → Int × Nat} {l : Lane}

theorem step_write_empty (empty : l.outbox.queue.blocks = []) (aw : WriteResult) :
    step fullWrite l (.write aw) = l := by
  simp [step, Writing.drain_empty empty]

theorem step_write_kept (agrees : Writing.Agrees fullWrite) {aw : WriteResult} (noCount : aw = .again ∨ aw = .failed) :
    step fullWrite l (.write aw) = l := by
  cases shape : l.outbox.queue.blocks with
  | nil => exact step_write_empty shape aw
  | cons block rest =>
    have stays : (fullWrite l.outbox.offset aw).1 ≠ 0 ∧ (fullWrite l.outbox.offset aw).2 = l.outbox.offset := by
      rcases noCount with rfl | rfl
      · exact agrees.again _
      · exact agrees.failed _
    have nothing : bytesAccepted block l.outbox.offset aw = [] := by
      rcases noCount with rfl | rfl <;> rfl
    simp [step, Writing.drain_kept shape stays.1, stays.2, nothing]

theorem step_write_popped (agrees : Writing.Agrees fullWrite) (settled : l.Settled) {block : Block} {rest : List Block}
    (shape : l.outbox.queue.blocks = block :: rest) {n : Nat} (positive : 0 < n) :
    step fullWrite l (.write (.count n)) = { l with outbox := ⟨⟨rest⟩, 0⟩, wire := l.wire ++ block.take n } := by
  simp [step, Writing.drain_popped shape (agrees.success _ n positive), bytesAccepted, settled.offset]

theorem stuck_of_runFuel {fuel : Nat} {part last : Intake} (ran : Loop.runFuel extractStep fuel part = some last) :
    splitPacket last.acc = none := by
  have exit := (StateTransition.mem_eval.mp (Loop.mem_eval_of_runFuel ran)).2
  simpa [extractStep] using exit

theorem settled_step (agrees : Writing.Agrees fullWrite) (l : Lane) (e : LaneMove) (settled : l.Settled)
    (legal : l.Legal e) : (step fullWrite l e).Settled := by
  cases e with
  | push block =>
    refine ⟨settled.offset, fun other member => ?_, settled.cut⟩
    rcases List.mem_append.mp member with old | new
    · exact settled.packets other old
    · rw [List.mem_singleton.mp new]
      exact legal
  | write aw =>
    cases aw with
    | again => rwa [step_write_kept agrees (.inl rfl)]
    | failed => rwa [step_write_kept agrees (.inr rfl)]
    | count n =>
      cases shape : l.outbox.queue.blocks with
      | nil => rwa [step_write_empty shape]
      | cons block rest =>
        rw [step_write_popped agrees settled shape legal.1]
        exact ⟨rfl, fun other member => settled.packets other (shape ▸ List.mem_cons_of_mem block member), settled.cut⟩
  | read n =>
    simp only [step]
    split
    · next intake ran => exact ⟨settled.offset, settled.packets, stuck_of_runFuel ran⟩
    · exact settled
  | pop => exact ⟨settled.offset, settled.packets, settled.cut⟩
  | idle => exact settled

theorem inLine_read (inLine : l.InLine) (n : Nat) : (step fullWrite l (.read n)).InLine := by
  obtain ⟨pkts, splits, whole⟩ := inLine
  have parts : l.intake.acc ++ l.wire = (l.intake.acc ++ l.wire.take n) ++ l.wire.drop n := by
    rw [List.append_assoc, List.take_append_drop]
  obtain ⟨early, late, middle, rfl, before, after⟩ := splits.cut _ _ parts
  have enough : early.length < intakeFuel l.intake.acc (l.wire.take n) := by
    have bound := before.length_le
    rw [List.length_append] at bound
    rw [intakeFuel]
    omega
  have ran := before.runFuel _ enough l.intake.readQ l.intake.tasks
  have read : step fullWrite l (.read n) = { l with
      intake := ⟨middle, ⟨l.intake.readQ.blocks ++ early⟩, l.intake.tasks + early.length⟩
      wire := l.wire.drop n } := by
    simp only [step, appendAcc, ran]
  rw [read]
  refine ⟨late, after, ?_⟩
  rw [← whole]
  simp only [List.append_assoc]

theorem inLine_pop (inLine : l.InLine) : (step fullWrite l .pop).InLine := by
  obtain ⟨pkts, splits, whole⟩ := inLine
  refine ⟨pkts, splits, ?_⟩
  have pushed : (step fullWrite l .pop).pushed = l.pushed := rfl
  rw [pushed, ← whole]
  cases shape : l.intake.readQ.blocks with
  | nil => simp [step, popBlock_nil shape, shape]
  | cons block rest => simp [step, popBlock_cons shape]

/-- A write keeps the line exactly if it takes the whole of the block. -/
theorem inLine_write (agrees : Writing.Agrees fullWrite) (settled : l.Settled) (inLine : l.InLine) {n : Nat}
    (legal : l.Legal (.write (.count n))) :
    (step fullWrite l (.write (.count n))).InLine ↔ l.TakesAll (.write (.count n)) := by
  cases shape : l.outbox.queue.blocks with
  | nil =>
    rw [step_write_empty shape]
    exact iff_of_true inLine fun block first => by simp [peekBlock, shape] at first
  | cons block rest =>
    obtain ⟨pkts, splits, whole⟩ := inLine
    have within := legal.2 block (peekBlock_cons shape)
    have all : l.TakesAll (.write (.count n)) ↔ n = block.length := by
      simp [TakesAll, peekBlock_cons shape, settled.offset]
    rw [step_write_popped agrees settled shape legal.1, all]
    constructor
    · rintro ⟨others, cut, same⟩
      -- What was pushed says which packets the bytes have, and so how many bytes there are.
      rw [← whole, shape] at same
      have packets : others = pkts ++ [block] := by
        have append : l.popped ++ l.intake.readQ.blocks ++ others ++ rest =
            l.popped ++ l.intake.readQ.blocks ++ (pkts ++ [block]) ++ rest := by
          simpa only [List.append_assoc, List.singleton_append] using same
        exact List.append_cancel_left (List.append_cancel_right append)
      have before := congrArg List.length splits.flatten
      have after := congrArg List.length cut.flatten
      simp only [packets, List.flatten_append, List.flatten_singleton, List.length_append, List.append_nil,
        List.length_take] at before after
      omega
    · rintro rfl
      obtain ⟨pack, fits, rfl⟩ := settled.packets block (shape ▸ List.mem_cons_self)
      refine ⟨pkts ++ [packetSerial pack], ?_, ?_⟩
      · have cut := splits.snoc fits
        rw [List.append_assoc] at cut
        rwa [List.take_length]
      · rw [← whole, shape]
        simp only [List.append_assoc, List.singleton_append]

theorem inLine_step (agrees : Writing.Agrees fullWrite) (l : Lane) (e : LaneMove) (settled : l.Settled)
    (inLine : l.InLine) (legal : l.Legal e) : (step fullWrite l e).InLine ↔ l.TakesAll e := by
  cases e with
  | push block =>
    refine iff_of_true ?_ trivial
    obtain ⟨pkts, splits, whole⟩ := inLine
    refine ⟨pkts, splits, ?_⟩
    simp only [step, blocks_pushBlock, ← whole, List.append_assoc]
  | write aw =>
    cases aw with
    | count n => exact inLine_write agrees settled inLine legal
    | again =>
      rw [step_write_kept agrees (.inl rfl)]
      exact iff_of_true inLine trivial
    | failed =>
      rw [step_write_kept agrees (.inr rfl)]
      exact iff_of_true inLine trivial
  | read n => exact iff_of_true (inLine_read inLine n) trivial
  | pop => exact iff_of_true (inLine_pop inLine) trivial
  | idle => exact iff_of_true inLine trivial

end Lane

namespace Traffic

def upLane (t : Traffic) : Lane := ⟨t.conn.client.outbox, t.conn.up, t.conn.server.intake, t.requested, t.worked⟩

def downLane (t : Traffic) : Lane := ⟨t.conn.server.outbox, t.conn.down, t.conn.client.intake, t.answered, t.handled⟩

def upMove : Transfer → LaneMove
  | .request block => .push block
  | .pollout aw => .write aw
  | .epollin n => .read n
  | .work => .pop
  | _ => .idle

def downMove : Transfer → LaneMove
  | .answer block => .push block
  | .epollout aw _ => .write aw
  | .pollin n => .read n
  | .onMessage => .pop
  | _ => .idle

section Projections

variable (t : Traffic)

theorem step_pollin (n : Nat) : t.step (.pollin n) =
    match Loop.runFuel extractStep (intakeFuel t.conn.client.acc (t.conn.down.take n))
      (appendAcc t.conn.client.intake (t.conn.down.take n)) with
    | some intake => { t with conn.client := t.conn.client.setIntake intake, conn.down := t.conn.down.drop n }
    | none => t := by
  simp only [step, runClientFeed, Framing.feed_single]
  cases ran : Loop.runFuel extractStep (intakeFuel t.conn.client.acc (t.conn.down.take n))
      (appendAcc t.conn.client.intake (t.conn.down.take n)) with
  | none => simp only [ClientLoop.intakePart, ran, Option.map_none]
  | some intake => simp only [ClientLoop.intakePart, ran, Option.map_some]

theorem step_epollin (n : Nat) : t.step (.epollin n) =
    match Loop.runFuel extractStep (intakeFuel t.conn.server.acc (t.conn.up.take n))
      (appendAcc t.conn.server.intake (t.conn.up.take n)) with
    | some intake => { t with conn.server := t.conn.server.setIntake intake, conn.up := t.conn.up.drop n }
    | none => t := by
  simp only [step, runServerFeed, Framing.feed_single]
  cases ran : Loop.runFuel extractStep (intakeFuel t.conn.server.acc (t.conn.up.take n))
      (appendAcc t.conn.server.intake (t.conn.up.take n)) with
  | none => simp only [Client.intakePart, ran, Option.map_none]
  | some intake => simp only [Client.intakePart, ran, Option.map_some]

theorem intake_runServerEpollout (cli : Client) (aw : WriteResult) (modOk : Bool) :
    (runServerEpollout cli aw modOk).1.intake = cli.intake := by
  simp only [runServerEpollout]
  split
  · cases modOk <;> rfl
  · rfl

theorem upLane_step (e : Transfer) : (t.step e).upLane = t.upLane.step cfullWrite (upMove e) := by
  cases e with
  | pollin n =>
    rw [step_pollin]
    split <;> rfl
  | epollin n =>
    rw [step_epollin]
    simp only [upMove, Lane.step, upLane, Client.intake]
    split <;> rfl
  | epollout aw modOk =>
    simp only [step, upMove, Lane.step, upLane, intake_runServerEpollout]
  | _ => rfl

theorem downLane_step (e : Transfer) : (t.step e).downLane = t.downLane.step sfullWrite (downMove e) := by
  cases e with
  | pollin n =>
    rw [step_pollin]
    simp only [downMove, Lane.step, downLane, ClientLoop.intake]
    split <;> rfl
  | epollin n =>
    rw [step_epollin]
    split <;> rfl
  | epollout aw modOk =>
    simp only [step, downMove, Lane.step, downLane, Writing.outbox_runServerEpollout,
      Writing.drained_runServerEpollout]
  | _ => rfl

variable {t}

theorem legal_upMove {e : Transfer} (legal : t.Legal e) : t.upLane.Legal (upMove e) := by
  cases e with
  | pollout aw => cases aw <;> exact legal
  | request block => exact legal
  | _ => exact trivial

theorem legal_downMove {e : Transfer} (legal : t.Legal e) : t.downLane.Legal (downMove e) := by
  cases e with
  | epollout aw modOk => cases aw <;> exact legal
  | answer block => exact legal
  | _ => exact trivial

theorem takesAll_moves (e : Transfer) :
    t.TakesAll e ↔ t.upLane.TakesAll (upMove e) ∧ t.downLane.TakesAll (downMove e) := by
  cases e with
  | pollout aw => cases aw <;> exact (and_iff_left trivial).symm
  | epollout aw modOk => cases aw <;> exact (and_iff_right trivial).symm
  | _ => exact (iff_of_true trivial ⟨trivial, trivial⟩)

end Projections

def exchange : List Transfer :=
  [.request (packetSerial (packetInit [104, 105] 7 9 1)), .pollout .again, .pollout (.count 63), .epollin 54, .epollin 9,
   .work, .answer (packetSerial (packetInit [] 0 7 1)), .epollout (.count 61) true, .pollin 61, .onMessage]

end Traffic

end Dcn
