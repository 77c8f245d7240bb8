import Dcn.Foundation.Runs
import Dcn.Net.Connection

/-! Writing the queued blocks: sfull_write with the EPOLLOUT branch of
run_server, and cfull_write with the POLLOUT branch of run_client.

Both ends copy the first block of the write queue, try one `write` from the
offset kept between calls, and pop the block where the function returned 0. A
sender is such an end together with the history of what was pushed, popped and
accepted by the socket; no branch reads the history.
-/

set_option autoImplicit false

namespace Dcn

inductive WriteResult where
  | count (n : Nat)
  | again
  | failed
  deriving DecidableEq, Repr

def sfullWrite (alrWritten : Nat) : WriteResult → Int × Nat
  | .count n => if 0 < n then (0, alrWritten + n) else (-2, alrWritten)
  | .again => (1, alrWritten)
  | .failed => (-1, alrWritten)

def cfullWrite (alrWr : Nat) : WriteResult → Int × Nat
  | .count n => (0, alrWr + n)
  | .again => (1, alrWr)
  | .failed => (-1, alrWr)

def bytesAccepted (block : Block) (offset : Nat) : WriteResult → Block
  | .count n => (block.drop offset).take n
  | .again | .failed => []

structure Outbox where
  queue : Queue
  offset : Nat
  deriving DecidableEq, Repr

/-- What one pass through a writing branch did. `code` is what `pop_block`
returned, where it was called. -/
structure Drained where
  outbox : Outbox
  accepted : Block
  popped : Option Block
  code : Option Nat
  deriving DecidableEq, Repr

def drain (fullWrite : Nat → WriteResult → Int × Nat) (out : Outbox) (aw : WriteResult) : Drained :=
  match peekBlock out.queue with
  | none => ⟨out, [], none, none⟩
  | some block =>
    let accepted := bytesAccepted block out.offset aw
    let (ret, offset) := fullWrite out.offset aw
    if ret = 0 then
      -- The offset is reset and the block popped whatever the count was.
      let (code, popped, queue) := popBlock out.queue
      ⟨⟨queue, 0⟩, accepted, popped, some code⟩
    else ⟨⟨out.queue, offset⟩, accepted, none, none⟩

/-- The EPOLLOUT branch of run_server; `modOk` is whether `change_climod`
succeeds, which is called where the last block was popped. The flag returned
is false where the failure stops the server. -/
def runServerEpollout (cli : Client) (aw : WriteResult) (modOk : Bool) : Client × Drained × Bool :=
  let drained := drain sfullWrite ⟨cli.writeQ, cli.alrWritten⟩ aw
  let cli := { cli with writeQ := drained.outbox.queue, alrWritten := drained.outbox.offset }
  if drained.code = some 2 then
    if modOk then ({ cli with mode := .input }, drained, true) else (cli, drained, false)
  else (cli, drained, true)

theorem readQ_runServerEpollout (c : Client) (aw : WriteResult) (modOk : Bool) :
    (runServerEpollout c aw modOk).1.readQ = c.readQ := by
  unfold runServerEpollout
  dsimp only
  split
  · split <;> rfl
  · rfl

def runClientPollout (md : ClientLoop) (aw : WriteResult) : ClientLoop × Drained :=
  let drained := drain cfullWrite ⟨md.qwrite, md.alrWr⟩ aw
  ({ md with qwrite := drained.outbox.queue, alrWr := drained.outbox.offset }, drained)

structure Sender (σ : Type) where
  owner : σ
  pushed : List Block
  popped : List Block
  accepted : Block
  deriving DecidableEq, Repr

inductive SendAction where
  | push (block : Block)
  | write (aw : WriteResult) (modOk : Bool)
  deriving DecidableEq, Repr

namespace Sender

variable {σ : Type}

def start (owner : σ) : Sender σ := ⟨owner, [], [], []⟩

def push (s : Sender σ) (owner : σ) (block : Block) : Sender σ :=
  { s with owner := owner, pushed := s.pushed ++ [block] }

def record (s : Sender σ) (owner : σ) (drained : Drained) : Sender σ where
  owner := owner
  pushed := s.pushed
  popped := s.popped ++ drained.popped.toList
  accepted := s.accepted ++ drained.accepted

/-- The socket got the pushed blocks in order and without gaps, and every
block popped was taken whole. -/
def InOrder (s : Sender σ) : Prop :=
  s.popped.flatten <+: s.accepted ∧ s.accepted <+: s.pushed.flatten

instance (s : Sender σ) : Decidable s.InOrder := inferInstanceAs (Decidable (_ ∧ _))

/-- Blocks are not empty, and a `write` that takes bytes takes at least one and
no more than it was asked to. -/
def Legal (outbox : σ → Outbox) (s : Sender σ) : SendAction → Prop
  | .push block => block ≠ []
  | .write (.count n) _ => 0 < n ∧ ∀ block, peekBlock (outbox s.owner).queue = some block →
      n ≤ block.length - (outbox s.owner).offset
  | .write .again _ | .write .failed _ => True

def TakesAll (outbox : σ → Outbox) (s : Sender σ) : SendAction → Prop
  | .write (.count n) _ => ∀ block, peekBlock (outbox s.owner).queue = some block →
      n = block.length - (outbox s.owner).offset
  | .write .again _ | .write .failed _ | .push _ => True

end Sender

def serverSend (s : Sender Client) : SendAction → Sender Client
  | .push block => s.push { s.owner with writeQ := pushBlock s.owner.writeQ block } block
  | .write aw modOk =>
    let (cli, drained, _) := runServerEpollout s.owner aw modOk
    s.record cli drained

def clientSend (s : Sender ClientLoop) : SendAction → Sender ClientLoop
  | .push block => s.push { s.owner with qwrite := pushBlock s.owner.qwrite block } block
  | .write aw _ =>
    let (md, drained) := runClientPollout s.owner aw
    s.record md drained

def Client.outbox (cli : Client) : Outbox := ⟨cli.writeQ, cli.alrWritten⟩

def ClientLoop.outbox (md : ClientLoop) : Outbox := ⟨md.qwrite, md.alrWr⟩

namespace Writing

def outboxSend (fullWrite : Nat → WriteResult → Int × Nat) (s : Sender Outbox) : SendAction → Sender Outbox
  | .push block => s.push ⟨pushBlock s.owner.queue block, s.owner.offset⟩ block
  | .write aw _ =>
    let drained := drain fullWrite s.owner aw
    s.record drained.outbox drained

def onOutbox {σ : Type} (outbox : σ → Outbox) (s : Sender σ) : Sender Outbox :=
  ⟨outbox s.owner, s.pushed, s.popped, s.accepted⟩

theorem outbox_runServerEpollout (cli : Client) (aw : WriteResult) (modOk : Bool) :
    (runServerEpollout cli aw modOk).1.outbox = (drain sfullWrite cli.outbox aw).outbox := by
  simp only [runServerEpollout, Client.outbox]
  split
  · cases modOk <;> rfl
  · rfl

theorem drained_runServerEpollout (cli : Client) (aw : WriteResult) (modOk : Bool) :
    (runServerEpollout cli aw modOk).2.1 = drain sfullWrite cli.outbox aw := by
  simp only [runServerEpollout, Client.outbox]
  split
  · cases modOk <;> rfl
  · rfl

theorem serverSend_project (s : Sender Client) (a : SendAction) :
    onOutbox Client.outbox (serverSend s a) = outboxSend sfullWrite (onOutbox Client.outbox s) a := by
  cases a with
  | push block => rfl
  | write aw modOk =>
    -- The mode the server switches to is no part of the outbox.
    simp only [serverSend, outboxSend, onOutbox, Sender.record, outbox_runServerEpollout,
      drained_runServerEpollout]

theorem clientSend_project (s : Sender ClientLoop) (a : SendAction) :
    onOutbox ClientLoop.outbox (clientSend s a) = outboxSend cfullWrite (onOutbox ClientLoop.outbox s) a := by
  cases a <;> rfl

section Drain

variable {fullWrite : Nat → WriteResult → Int × Nat} {out : Outbox} {block : Block} {rest : List Block}

theorem drain_empty (empty : out.queue.blocks = []) (aw : WriteResult) :
    drain fullWrite out aw = ⟨out, [], none, none⟩ := by
  simp [drain, peekBlock, empty]

theorem drain_popped (shape : out.queue.blocks = block :: rest) {aw : WriteResult}
    (success : (fullWrite out.offset aw).1 = 0) :
    drain fullWrite out aw = ⟨⟨⟨rest⟩, 0⟩, bytesAccepted block out.offset aw, some block,
      some (if rest = [] then 2 else 0)⟩ := by
  simp [drain, peekBlock_cons shape, success, popBlock_cons shape]

theorem drain_kept (shape : out.queue.blocks = block :: rest) {aw : WriteResult}
    (failure : (fullWrite out.offset aw).1 ≠ 0) :
    drain fullWrite out aw = ⟨⟨out.queue, (fullWrite out.offset aw).2⟩,
      bytesAccepted block out.offset aw, none, none⟩ := by
  simp [drain, peekBlock_cons shape, failure]

end Drain

/-- What the two functions have in common: a positive count is a success, and
without a count the offset stays. -/
structure Agrees (fullWrite : Nat → WriteResult → Int × Nat) : Prop where
  success : ∀ offset n, 0 < n → (fullWrite offset (.count n)).1 = 0
  again : ∀ offset, (fullWrite offset .again).1 ≠ 0 ∧ (fullWrite offset .again).2 = offset
  failed : ∀ offset, (fullWrite offset .failed).1 ≠ 0 ∧ (fullWrite offset .failed).2 = offset

theorem agrees_sfullWrite : Agrees sfullWrite where
  success offset n positive := by simp [sfullWrite, positive]
  again offset := by simp [sfullWrite]
  failed offset := by simp [sfullWrite]

theorem agrees_cfullWrite : Agrees cfullWrite where
  success offset n positive := rfl
  again offset := by simp [cfullWrite]
  failed offset := by simp [cfullWrite]

/-- What every step keeps: the history accounts for every block, the offset is
zero between calls, and no more bytes went out than were popped. -/
structure Accounted (s : Sender Outbox) : Prop where
  blocks : s.pushed = s.popped ++ s.owner.queue.blocks
  offset : s.owner.offset = 0
  nonempty : ∀ block ∈ s.owner.queue.blocks, block ≠ []
  bounded : s.accepted.length ≤ s.popped.flatten.length

section Step

variable {fullWrite : Nat → WriteResult → Int × Nat} {s : Sender Outbox}

theorem outboxSend_write_empty (empty : s.owner.queue.blocks = []) (aw : WriteResult) (modOk : Bool) :
    outboxSend fullWrite s (.write aw modOk) = s := by
  simp [outboxSend, drain_empty empty, Sender.record]

theorem outboxSend_write_kept (agrees : Agrees fullWrite) {aw : WriteResult} (modOk : Bool)
    (noCount : aw = .again ∨ aw = .failed) :
    outboxSend fullWrite s (.write aw modOk) = s := by
  cases shape : s.owner.queue.blocks with
  | nil => exact outboxSend_write_empty shape aw modOk
  | cons block rest =>
    have stays : (fullWrite s.owner.offset aw).1 ≠ 0 ∧ (fullWrite s.owner.offset aw).2 = s.owner.offset := by
      rcases noCount with rfl | rfl
      · exact agrees.again _
      · exact agrees.failed _
    have nothing : bytesAccepted block s.owner.offset aw = [] := by
      rcases noCount with rfl | rfl <;> rfl
    simp [outboxSend, drain_kept shape stays.1, stays.2, nothing, Sender.record]

theorem outboxSend_write_popped (agrees : Agrees fullWrite) (accounted : Accounted s) {block : Block}
    {rest : List Block} (shape : s.owner.queue.blocks = block :: rest) {n : Nat} (positive : 0 < n)
    (modOk : Bool) : outboxSend fullWrite s (.write (.count n) modOk) =
      ⟨⟨⟨rest⟩, 0⟩, s.pushed, s.popped ++ [block], s.accepted ++ block.take n⟩ := by
  simp [outboxSend, drain_popped shape (agrees.success _ n positive), bytesAccepted,
    accounted.offset, Sender.record]

theorem accounted_push (accounted : Accounted s) {block : Block} (filled : block ≠ []) :
    Accounted (outboxSend fullWrite s (.push block)) where
  blocks := by simp [outboxSend, Sender.push, accounted.blocks]
  offset := accounted.offset
  nonempty other member := by
    rcases List.mem_append.mp member with old | new
    · exact accounted.nonempty other old
    · rw [List.mem_singleton.mp new]; exact filled
  bounded := accounted.bounded

theorem accounted_step (agrees : Agrees fullWrite) (s : Sender Outbox) (a : SendAction)
    (accounted : Accounted s) (legal : Sender.Legal id s a) : Accounted (outboxSend fullWrite s a) := by
  cases a with
  | push block => exact accounted_push accounted legal
  | write aw modOk =>
    cases aw with
    | again => rwa [outboxSend_write_kept agrees modOk (.inl rfl)]
    | failed => rwa [outboxSend_write_kept agrees modOk (.inr rfl)]
    | count n =>
      cases shape : s.owner.queue.blocks with
      | nil => rwa [outboxSend_write_empty shape]
      | cons block rest =>
        -- Any positive count pops the block, so the popped blocks bound what went out.
        rw [outboxSend_write_popped agrees accounted shape legal.1 modOk]
        have within := legal.2 block (peekBlock_cons shape)
        exact {
          blocks := by rw [accounted.blocks, shape]; simp
          offset := rfl
          nonempty := fun other member => accounted.nonempty other (shape ▸ List.mem_cons_of_mem block member)
          bounded := by
            have bound := accounted.bounded
            simp only [List.length_append, List.flatten_append, List.length_take, List.flatten_singleton]
            omega }

theorem inOrder_popped_iff (accounted : Accounted s) (order : s.InOrder) {block : Block}
    {rest : List Block} (shape : s.owner.queue.blocks = block :: rest) {n : Nat} (within : n ≤ block.length) :
    Sender.InOrder ⟨Outbox.mk ⟨rest⟩ 0, s.pushed, s.popped ++ [block], s.accepted ++ block.take n⟩ ↔
      n = block.length := by
  -- Before the write exactly the popped blocks had gone out.
  have settled : s.accepted = s.popped.flatten :=
    (order.1.eq_of_length_le accounted.bounded).symm
  simp only [Sender.InOrder, settled, accounted.blocks, shape, List.flatten_append, List.flatten_cons,
    List.flatten_nil, List.append_nil, List.prefix_append_right_inj]
  refine ⟨fun holds => ?_, fun all => ?_⟩
  · have length := holds.1.length_le
    rw [List.length_take] at length
    omega
  · rw [all, List.take_length]
    exact ⟨List.prefix_rfl, List.prefix_append _ _⟩

theorem inOrder_step (agrees : Agrees fullWrite) (s : Sender Outbox) (a : SendAction)
    (accounted : Accounted s) (order : s.InOrder) (legal : Sender.Legal id s a) :
    (outboxSend fullWrite s a).InOrder ↔ Sender.TakesAll id s a := by
  cases a with
  | push block =>
    refine iff_of_true ⟨order.1, ?_⟩ trivial
    exact order.2.trans (by simp [outboxSend, Sender.push])
  | write aw modOk =>
    cases aw with
    | again =>
      rw [outboxSend_write_kept agrees modOk (.inl rfl)]
      exact iff_of_true order trivial
    | failed =>
      rw [outboxSend_write_kept agrees modOk (.inr rfl)]
      exact iff_of_true order trivial
    | count n =>
      cases shape : s.owner.queue.blocks with
      | nil =>
        rw [outboxSend_write_empty shape]
        exact iff_of_true order (by simp [Sender.TakesAll, peekBlock, shape])
      | cons block rest =>
        have within := legal.2 block (peekBlock_cons shape)
        rw [outboxSend_write_popped agrees accounted shape legal.1 modOk,
          inOrder_popped_iff accounted order shape (by omega)]
        simp [Sender.TakesAll, peekBlock_cons shape, accounted.offset]

end Step

theorem outbox_inOrder_iff {fullWrite : Nat → WriteResult → Int × Nat} (agrees : Agrees fullWrite)
    (actions : List SendAction)
    (legal : Runs.Along (outboxSend fullWrite) (Sender.Legal id) (.start ⟨queueInit, 0⟩) actions) :
    Runs.Throughout (outboxSend fullWrite) Sender.InOrder (.start ⟨queueInit, 0⟩) actions ↔
      Runs.Along (outboxSend fullWrite) (Sender.TakesAll id) (.start ⟨queueInit, 0⟩) actions :=
  Runs.throughout_iff_along (accounted_step agrees) (inOrder_step agrees)
    ⟨rfl, rfl, by simp [Sender.start], Nat.le_refl _⟩ ⟨List.prefix_rfl, List.prefix_rfl⟩ legal

theorem legal_onOutbox {σ : Type} (outbox : σ → Outbox) :
    Sender.Legal outbox = fun s a => Sender.Legal id (onOutbox outbox s) a := by
  funext s a
  cases a with
  | push block => rfl
  | write aw modOk => cases aw <;> rfl

theorem takesAll_onOutbox {σ : Type} (outbox : σ → Outbox) :
    Sender.TakesAll outbox = fun s a => Sender.TakesAll id (onOutbox outbox s) a := by
  funext s a
  cases a with
  | push block => rfl
  | write aw modOk => cases aw <;> rfl

theorem inOrder_iff_of_project {σ : Type} (outbox : σ → Outbox) {step : Sender σ → SendAction → Sender σ}
    {fullWrite : Nat → WriteResult → Int × Nat} (agrees : Agrees fullWrite)
    (project : ∀ s a, onOutbox outbox (step s a) = outboxSend fullWrite (onOutbox outbox s) a)
    {owner : σ} (fresh : outbox owner = ⟨queueInit, 0⟩) {actions : List SendAction}
    (legal : Runs.Along step (Sender.Legal outbox) (.start owner) actions) :
    Runs.Throughout step Sender.InOrder (.start owner) actions ↔
      Runs.Along step (Sender.TakesAll outbox) (.start owner) actions := by
  have start : onOutbox outbox (.start owner) = .start ⟨queueInit, 0⟩ := by
    simp [onOutbox, Sender.start, fresh]
  have inOrder : Runs.Throughout step Sender.InOrder (.start owner) actions ↔
      Runs.Throughout (outboxSend fullWrite) Sender.InOrder (onOutbox outbox (.start owner)) actions :=
    Runs.throughout_project (onOutbox outbox) project Sender.InOrder _ actions
  rw [legal_onOutbox, Runs.along_project (onOutbox outbox) project (Sender.Legal id), start] at legal
  rw [inOrder, takesAll_onOutbox, Runs.along_project (onOutbox outbox) project (Sender.TakesAll id), start]
  exact outbox_inOrder_iff agrees actions legal

/-- At either end, in every run of pushes and writes, the socket gets the pushed
blocks in order and a block is popped only when taken whole, exactly when no
`write` takes a part of what it was asked to. -/
theorem sent_inOrder_iff (fd : Int) (ip : String) (port : UInt16) (actions : List SendAction) :
    (Runs.Along serverSend (Sender.Legal Client.outbox) (.start (acceptClient fd ip port)) actions →
      (Runs.Throughout serverSend Sender.InOrder (.start (acceptClient fd ip port)) actions ↔
        Runs.Along serverSend (Sender.TakesAll Client.outbox) (.start (acceptClient fd ip port)) actions)) ∧
    (Runs.Along clientSend (Sender.Legal ClientLoop.outbox) (.start ⟨queueInit, queueInit, 0, [], 0⟩) actions →
      (Runs.Throughout clientSend Sender.InOrder (.start ⟨queueInit, queueInit, 0, [], 0⟩) actions ↔
        Runs.Along clientSend (Sender.TakesAll ClientLoop.outbox)
          (.start ⟨queueInit, queueInit, 0, [], 0⟩) actions)) := by
  refine ⟨fun legal => ?_, fun legal => ?_⟩
  · exact inOrder_iff_of_project Client.outbox agrees_sfullWrite serverSend_project rfl legal
  · exact inOrder_iff_of_project ClientLoop.outbox agrees_cfullWrite clientSend_project rfl legal

def shortWrite : List SendAction :=
  [.push [1, 2, 3], .push [4, 5], .write (.count 2) true]

theorem sent_inOrder_iff_short :
    (Runs.Throughout serverSend Sender.InOrder (.start (acceptClient 5 "127.0.0.1" 40000)) shortWrite ↔
      Runs.Along serverSend (Sender.TakesAll Client.outbox)
        (.start (acceptClient 5 "127.0.0.1" 40000)) shortWrite) ∧
    (Runs.Throughout clientSend Sender.InOrder (.start ⟨queueInit, queueInit, 0, [], 0⟩) shortWrite ↔
      Runs.Along clientSend (Sender.TakesAll ClientLoop.outbox)
        (.start ⟨queueInit, queueInit, 0, [], 0⟩) shortWrite) :=
  ⟨(sent_inOrder_iff 5 "127.0.0.1" 40000 shortWrite).1 ⟨List.cons_ne_nil _ _, List.cons_ne_nil _ _, ⟨by decide, by
      intro block first; cases first; decide⟩, trivial⟩,
    (sent_inOrder_iff 5 "127.0.0.1" 40000 shortWrite).2 ⟨List.cons_ne_nil _ _, List.cons_ne_nil _ _, ⟨by decide, by
      intro block first; cases first; decide⟩, trivial⟩⟩

theorem short_write_loses_bytes :
    ¬ Runs.Throughout serverSend Sender.InOrder (.start (acceptClient 5 "127.0.0.1" 40000)) shortWrite ∧
      ¬ Runs.Throughout clientSend Sender.InOrder (.start ⟨queueInit, queueInit, 0, [], 0⟩) shortWrite := by
  refine ⟨fun throughout => ?_, fun throughout => ?_⟩
  · exact absurd throughout.last (by decide)
  · exact absurd throughout.last (by decide)

end Writing

end Dcn
