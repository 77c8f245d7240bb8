import Mathlib.Data.Set.Card
import Mathlib.Data.Fintype.Card
import Dcn.Foundation.Runs
import Dcn.Sync.Once

/-! How many coroutines may wait at once in the thread pool of an event loop.

A coroutine that waits for another one, as a request that waits for the handler
of its answer, keeps its worker until the other is started. The steps that the
pool and the calls still owe come to an end; what has been started by then
depends on whether fewer coroutines wait than there are workers.
-/

set_option autoImplicit false

namespace Dcn

structure Blocking where
  waits : Nat → Bool
  helps : Nat → Nat → Bool

namespace Loop

variable {ω : Type}

def Active (l : Loop ω) : LoopEvent ω → Prop
  | .push call => ∃ block fut, l.calls call = .push block fut
  | .signal call _ => ∃ fut, l.calls call = .signal fut
  | .take w => l.Enters w
  | .start w => ∃ task, l.workers w = .took task
  | .finish w _ => ∃ fut crt, l.workers w = .running fut crt
  | .store w => ∃ fut, l.workers w = .store fut
  | _ => False

def Waits (b : Blocking) (l : Loop ω) (w : ω) : Prop :=
  ∃ fut crt c, l.workers w = .running fut crt ∧ l.coroutines crt = some c ∧ b.waits c.call = true

/-- A step that comes without anybody's help. -/
def Due (b : Blocking) (l : Loop ω) (e : LoopEvent ω) : Prop :=
  l.Active e ∧ ∀ w result, e = .finish w result → ¬l.Waits b w

/-- A coroutine that waits returns once one that helps it is started. -/
def Obeys (b : Blocking) (l : Loop ω) : LoopEvent ω → Prop
  | .finish w _ => ∀ fut crt c, l.workers w = .running fut crt → l.coroutines crt = some c → b.waits c.call = true →
      ∃ m ∈ l.started, b.helps m c.call = true
  | _ => True

def outstanding (b : Blocking) (l : Loop ω) : Set Nat :=
  { n | l.calls n ≠ .before ∧ b.waits n = true ∧ n ∉ l.returned.map Prod.fst }

section Changes

variable [DecidableEq ω]

inductive Change (l m : Loop ω) : LoopEvent ω → Prop where
  | still {e : LoopEvent ω} (idle : ¬l.Active e) (q : m.q = l.q) (hasTasks : m.hasTasks = l.hasTasks)
      (calls : m.calls = l.calls) (workers : m.workers = l.workers) : Change l m e
  | create (call : Nat) (crt fut : UInt64) (padding : Fin 7 → UInt8) (pc : CreatePc) (before : l.calls call = .before)
      (pushes : ∀ f, pc ≠ .signal f) (q : m.q = l.q) (hasTasks : m.hasTasks = l.hasTasks)
      (calls : m.calls = Function.update l.calls call pc) (workers : m.workers = l.workers) :
      Change l m (.create call crt fut padding)
  | push (call : Nat) (block : Block) (fut : UInt64) (pushing : l.calls call = .push block fut)
      (q : m.q = pushBlock l.q block) (hasTasks : m.hasTasks = l.hasTasks)
      (calls : m.calls = Function.update l.calls call (.signal fut)) (workers : m.workers = l.workers) :
      Change l m (.push call)
  | signal (call choice : Nat) (fut : UInt64) (signalling : l.calls call = .signal fut) (q : m.q = l.q)
      (hasTasks : m.hasTasks = l.hasTasks.signal choice)
      (calls : m.calls = Function.update l.calls call (.returned fut)) (workers : m.workers = l.workers) :
      Change l m (.signal call choice)
  | sleep (w : ω) (enters : l.Enters w) (empty : l.q.blocks = []) (q : m.q = l.q)
      (hasTasks : m.hasTasks = l.hasTasks.block w) (calls : m.calls = l.calls)
      (workers : m.workers = Function.update l.workers w .waiting) : Change l m (.take w)
  | take (w : ω) (enters : l.Enters w) (block : Block) (rest : List Block) (task : Task)
      (shape : l.q.blocks = block :: rest) (q : m.q.blocks = rest) (hasTasks : m.hasTasks = l.hasTasks)
      (calls : m.calls = l.calls) (workers : m.workers = Function.update l.workers w (.took task)) :
      Change l m (.take w)
  | wake (w : ω) (q : m.q = l.q) (hasTasks : m.hasTasks = l.hasTasks.release w) (calls : m.calls = l.calls)
      (workers : m.workers = l.workers) : Change l m (.wake w)
  | move {e : LoopEvent ω} (w : ω) (pc : WorkerPc) (busy : (l.workers w).free = false)
      (next : (∃ task fut crt, l.workers w = .took task ∧ pc = .running fut crt) ∨
        (∃ fut crt, l.workers w = .running fut crt ∧ pc = .store fut) ∨ (∃ fut, l.workers w = .store fut) ∧ pc = .check)
      (q : m.q = l.q) (hasTasks : m.hasTasks = l.hasTasks) (calls : m.calls = l.calls)
      (workers : m.workers = Function.update l.workers w pc) : Change l m e

variable {l : Loop ω} {stage : Nat → Stage ω} {line : List Nat}

theorem step_start (tracks : l.Tracks stage line) {w : ω} {task : Task} (took : l.workers w = .took task) :
    ∃ n fut crt, stage n = .taken w fut crt ∧
      l.step (.start w) = { l with started := l.started ++ [n] }.goto w (.running fut crt) := by
  obtain ⟨n, fut, crt, taken, isTask⟩ := taken_of_took tracks took
  subst isTask
  have leads := leads_of_boxes tracks (by rw [taken]; rfl) (by rw [taken]; rfl)
  exact ⟨n, fut, crt, taken, by simp only [step, took, leads]⟩

omit [DecidableEq ω] in
theorem boxes_of_running (tracks : l.Tracks stage line) {w : ω} {fut crt : UInt64}
    (running : l.workers w = .running fut crt) :
    ∃ n, stage n = .running w fut crt ∧ l.futures fut = some (futureInit n (pointerBytes crt)) ∧
      l.coroutines crt = some ⟨n⟩ := by
  obtain ⟨n, isRunning⟩ := running_of tracks running
  have future := tracks.futures.holds n fut (futureInit n (pointerBytes crt)) (by rw [isRunning]; rfl)
  have coroutine := tracks.coroutines.holds n crt ⟨n⟩ (by rw [isRunning]; rfl)
  exact ⟨n, isRunning, future.1, coroutine.1⟩

theorem change_take (tracks : l.Tracks stage line) {w : ω} (enters : l.Enters w) : Change l (l.take w) (.take w) := by
  cases shape : l.q.blocks with
  | nil =>
    have waits : l.take w = { l with hasTasks := l.hasTasks.block w }.goto w .waiting := by
      simp only [take, popBlock_nil shape]
    rw [waits]
    exact .sleep w enters shape rfl rfl rfl rfl
  | cons block rest =>
    have size : block.length = 16 := tracks.lined.sizes block (shape ▸ List.mem_cons_self)
    have takes : l.take w = { l with q := ⟨rest⟩ }.goto w (.took (.ofBytes block)) := by
      simp only [take, popBlock_cons shape, genericQbout_whole size]
    rw [takes]
    exact .take w enters block rest _ shape rfl rfl rfl rfl

theorem change_step (tracks : l.Tracks stage line) (e : LoopEvent ω) : Change l (l.step e) e := by
  cases e with
  | create call crt fut padding =>
    simp only [step]
    split
    · next before => exact .create call crt fut padding _ before (by simp) rfl rfl rfl rfl
    · exact .still id rfl rfl rfl rfl
  | push call =>
    cases at_ : l.calls call with
    | push block fut =>
      simp only [step, at_]
      exact .push call block fut at_ rfl rfl rfl rfl
    | _ =>
      simp only [step, at_]
      exact .still (by simp [Active, at_]) rfl rfl rfl rfl
  | signal call choice =>
    cases at_ : l.calls call with
    | signal fut =>
      simp only [step, at_]
      exact .signal call choice fut at_ rfl rfl rfl rfl
    | _ =>
      simp only [step, at_]
      exact .still (by simp [Active, at_]) rfl rfl rfl rfl
  | take w =>
    simp only [step]
    split
    · next enters => exact change_take tracks enters
    · next out => exact .still out rfl rfl rfl rfl
  | wake w => exact .wake w rfl rfl rfl rfl
  | start w =>
    cases here : l.workers w with
    | took task =>
      obtain ⟨n, fut, crt, -, starts⟩ := step_start tracks here
      rw [starts]
      exact .move w _ (by rw [here]; rfl) (.inl ⟨task, fut, crt, here, rfl⟩) rfl rfl rfl rfl
    | _ =>
      simp only [step, here]
      exact .still (by simp [Active, here]) rfl rfl rfl rfl
  | finish w result =>
    cases here : l.workers w with
    | running fut crt =>
      obtain ⟨n, -, future, coroutine⟩ := boxes_of_running tracks here
      simp only [step, here, future, coroutine]
      exact .move w _ (by rw [here]; rfl) (.inr (.inl ⟨fut, crt, here, rfl⟩)) rfl rfl rfl rfl
    | _ =>
      simp only [step, here]
      exact .still (by simp [Active, here]) rfl rfl rfl rfl
  | store w =>
    cases here : l.workers w with
    | store fut =>
      simp only [step, here]
      exact .move w _ (by rw [here]; rfl) (.inr (.inr ⟨⟨fut, here⟩, rfl⟩)) rfl rfl rfl rfl
    | _ =>
      simp only [step, here]
      exact .still (by simp [Active, here]) rfl rfl rfl rfl
  | await fut =>
    simp only [step]
    repeat' split
    all_goals exact .still id rfl rfl rfl rfl
  | release fut =>
    simp only [step]
    split <;> exact .still id rfl rfl rfl rfl

end Changes

section Awakened

/-- For every task there is a worker on its way to the queue or a signal to
come, as long as some worker sleeps. -/
def Awakened (l : Loop ω) : Prop :=
  ∃ (ws : Finset ω) (ns : Finset Nat), (∀ w ∈ ws, l.Enters w) ∧ (∀ n ∈ ns, ∃ fut, l.calls n = .signal fut) ∧
    ((∃ w, l.Asleep w) → l.q.blocks.length ≤ ws.card + ns.card)

def Blocked (l : Loop ω) : Prop := ∀ w ∈ l.hasTasks.waiting, l.workers w = .waiting

variable {l m : Loop ω}

theorem Awakened.mono (awakened : l.Awakened) (queue : m.q = l.q) (enters : ∀ w, l.Enters w → m.Enters w)
    (asleep : ∀ w, m.Asleep w → l.Asleep w)
    (signals : ∀ n fut, l.calls n = .signal fut → m.calls n = .signal fut) : m.Awakened := by
  obtain ⟨ws, ns, coming, signalling, enough⟩ := awakened
  refine ⟨ws, ns, fun w member => enters w (coming w member), fun n member => ?_, ?_⟩
  · obtain ⟨fut, at_⟩ := signalling n member
    exact ⟨fut, signals n fut at_⟩
  · rintro ⟨w, sleeps⟩
    rw [queue]
    exact enough ⟨w, asleep w sleeps⟩

theorem not_enters_of_busy {w : ω} (busy : (l.workers w).free = false) : ¬l.Enters w := by
  rintro (check | ⟨waiting, -⟩)
  · rw [check] at busy
    cases busy
  · rw [waiting] at busy
    cases busy

variable [DecidableEq ω] {e : LoopEvent ω}

theorem blocked_change (blocked : l.Blocked) (change : Change l m e) : m.Blocked := by
  intro w member
  cases change with
  | still idle q hasTasks calls workers | push call block fut pushing q hasTasks calls workers =>
    rw [hasTasks] at member
    rw [workers]
    exact blocked w member
  | create call crt fut padding pc before pushes q hasTasks calls workers =>
    rw [hasTasks] at member
    rw [workers]
    exact blocked w member
  | signal call choice fut signalling q hasTasks calls workers =>
    rw [hasTasks, Condition.mem_signal] at member
    rw [workers]
    exact blocked w member.1
  | wake v q hasTasks calls workers =>
    rw [hasTasks, Condition.mem_release] at member
    rw [workers]
    exact blocked w member.1
  | sleep v enters empty q hasTasks calls workers =>
    rw [hasTasks, Condition.mem_block] at member
    rw [workers]
    by_cases same : w = v
    · subst same
      exact Function.update_self ..
    · rw [Function.update_of_ne same]
      exact blocked w (member.resolve_right same)
  | take v enters block rest task shape q hasTasks calls workers =>
    rw [hasTasks] at member
    have waiting := blocked w member
    -- A worker that enters the section is not blocked any more.
    have other : w ≠ v := by
      rintro rfl
      rcases enters with check | ⟨-, released⟩
      · rw [check] at waiting
        cases waiting
      · exact released member
    rw [workers, Function.update_of_ne other]
    exact waiting
  | move v pc busy next q hasTasks calls workers =>
    rw [hasTasks] at member
    have waiting := blocked w member
    have other : w ≠ v := by
      rintro rfl
      rw [waiting] at busy
      cases busy
    rw [workers, Function.update_of_ne other]
    exact waiting

omit [DecidableEq ω] in
theorem awakened_push (awakened : l.Awakened) {call : Nat} {block : Block} {fut : UInt64}
    (pushing : l.calls call = .push block fut) (q : m.q = pushBlock l.q block) (hasTasks : m.hasTasks = l.hasTasks)
    (calls : m.calls = Function.update l.calls call (.signal fut)) (workers : m.workers = l.workers) : m.Awakened := by
  obtain ⟨ws, ns, coming, signalling, enough⟩ := awakened
  have fresh : call ∉ ns := by
    intro member
    obtain ⟨other, at_⟩ := signalling call member
    rw [pushing] at at_
    cases at_
  refine ⟨ws, insert call ns, fun w member => ?_, fun n member => ?_, ?_⟩
  · rw [Enters, workers, hasTasks]
    exact coming w member
  · rw [calls]
    by_cases same : n = call
    · subst same
      exact ⟨fut, Function.update_self ..⟩
    · rw [Function.update_of_ne same]
      exact signalling n (Finset.mem_of_mem_insert_of_ne member same)
  · rintro ⟨w, sleeps⟩
    rw [Asleep, workers, hasTasks] at sleeps
    have bound := enough ⟨w, sleeps⟩
    rw [q, blocks_pushBlock, List.length_append, List.length_singleton, Finset.card_insert_of_notMem fresh]
    omega

theorem awakened_signal (awakened : l.Awakened) (blocked : l.Blocked) {call choice : Nat} {fut : UInt64}
    (q : m.q = l.q) (hasTasks : m.hasTasks = l.hasTasks.signal choice)
    (calls : m.calls = Function.update l.calls call (.returned fut)) (workers : m.workers = l.workers) :
    m.Awakened := by
  obtain ⟨ws, ns, coming, signalling, enough⟩ := awakened
  have enters : ∀ w, l.Enters w → m.Enters w := by
    intro w up
    rw [Enters, workers, hasTasks]
    exact up.imp_right fun ⟨waiting, out⟩ => ⟨waiting, fun member => out (Condition.mem_signal.mp member).1⟩
  have signals : ∀ n ∈ ns.erase call, ∃ fut, m.calls n = .signal fut := by
    intro n member
    obtain ⟨other, inside⟩ := Finset.mem_erase.mp member
    rw [calls, Function.update_of_ne other]
    exact signalling n inside
  have few : ns.card ≤ (ns.erase call).card + 1 := by
    have := @Finset.pred_card_le_card_erase _ ns call _
    omega
  cases picked : l.hasTasks.picked choice with
  | none =>
    -- Nobody was blocked, so nobody sleeps.
    have nobody : l.hasTasks.waiting = [] := by
      by_contra some
      have bound : choice % l.hasTasks.waiting.length < l.hasTasks.waiting.length :=
        Nat.mod_lt _ (List.length_pos_iff.mpr some)
      rw [Condition.picked, List.getElem?_eq_getElem bound] at picked
      cases picked
    refine ⟨ws, ns.erase call, fun w member => enters w (coming w member), signals, ?_⟩
    rintro ⟨w, -, member⟩
    rw [hasTasks, Condition.mem_signal, nobody] at member
    cases member.1
  | some v =>
    have inside : v ∈ l.hasTasks.waiting := List.mem_of_getElem? picked
    have waiting := blocked v inside
    have fresh : v ∉ ws := by
      intro member
      rcases coming v member with check | ⟨-, out⟩
      · rw [check] at waiting
        cases waiting
      · exact out inside
    refine ⟨insert v ws, ns.erase call, fun w member => ?_, signals, ?_⟩
    · rcases Finset.mem_insert.mp member with rfl | old
      · refine .inr ⟨by rw [workers]; exact waiting, fun still => ?_⟩
        rw [hasTasks, Condition.mem_signal] at still
        exact still.2 picked
      · exact enters w (coming w old)
    · rintro ⟨w, sleeps, member⟩
      rw [workers] at sleeps
      rw [hasTasks, Condition.mem_signal] at member
      have bound := enough ⟨w, sleeps, member.1⟩
      rw [q, Finset.card_insert_of_notMem fresh]
      omega

theorem awakened_take (awakened : l.Awakened) {w : ω} {block : Block} {rest : List Block} {task : Task}
    (shape : l.q.blocks = block :: rest) (q : m.q.blocks = rest) (hasTasks : m.hasTasks = l.hasTasks)
    (calls : m.calls = l.calls) (workers : m.workers = Function.update l.workers w (.took task)) : m.Awakened := by
  obtain ⟨ws, ns, coming, signalling, enough⟩ := awakened
  refine ⟨ws.erase w, ns, fun v member => ?_, fun n member => ?_, ?_⟩
  · obtain ⟨other, old⟩ := Finset.mem_erase.mp member
    rw [Enters, workers, hasTasks, Function.update_of_ne other]
    exact coming v old
  · rw [calls]
    exact signalling n member
  · rintro ⟨v, sleeps, member⟩
    have other : v ≠ w := by
      rintro rfl
      rw [workers, Function.update_self] at sleeps
      cases sleeps
    rw [workers, Function.update_of_ne other] at sleeps
    rw [hasTasks] at member
    have bound := enough ⟨v, sleeps, member⟩
    have := @Finset.pred_card_le_card_erase _ ws w _
    rw [shape, List.length_cons] at bound
    rw [q]
    omega

theorem awakened_change (awakened : l.Awakened) (blocked : l.Blocked) (change : Change l m e) : m.Awakened := by
  cases change with
  | still idle q hasTasks calls workers =>
    refine awakened.mono q (fun w up => ?_) (fun w sleeps => ?_) fun n fut coming => ?_
    · rwa [Enters, workers, hasTasks]
    · rwa [Asleep, workers, hasTasks] at sleeps
    · rwa [calls]
  | create call crt fut padding pc before pushes q hasTasks calls workers =>
    refine awakened.mono q (fun w up => ?_) (fun w sleeps => ?_) fun n other coming => ?_
    · rwa [Enters, workers, hasTasks]
    · rwa [Asleep, workers, hasTasks] at sleeps
    · have apart : n ≠ call := by
        rintro rfl
        rw [before] at coming
        cases coming
      rwa [calls, Function.update_of_ne apart]
  | push call block fut pushing q hasTasks calls workers => exact awakened_push awakened pushing q hasTasks calls workers
  | signal call choice fut signalling q hasTasks calls workers =>
    exact awakened_signal awakened blocked q hasTasks calls workers
  | sleep w enters empty q hasTasks calls workers =>
    refine ⟨∅, ∅, fun v member => absurd member (Finset.notMem_empty v),
      fun n member => absurd member (Finset.notMem_empty n), fun _ => ?_⟩
    rw [q, empty, List.length_nil]
    exact Nat.zero_le _
  | take w enters block rest task shape q hasTasks calls workers =>
    exact awakened_take awakened shape q hasTasks calls workers
  | wake w q hasTasks calls workers =>
    refine awakened.mono q (fun v up => ?_) (fun v sleeps => ?_) fun n fut coming => ?_
    · rw [Enters, workers, hasTasks]
      exact up.imp_right fun ⟨waiting, out⟩ => ⟨waiting, fun member => out (Condition.mem_release.mp member).1⟩
    · rw [Asleep, workers, hasTasks, Condition.mem_release] at sleeps
      exact ⟨sleeps.1, sleeps.2.1⟩
    · rwa [calls]
  | move w pc busy next q hasTasks calls workers =>
    have up : pc ≠ .waiting := by
      rintro rfl
      rcases next with ⟨_, _, _, -, wrong⟩ | ⟨_, _, -, wrong⟩ | ⟨-, wrong⟩ <;> cases wrong
    refine awakened.mono q (fun v enters => ?_) (fun v sleeps => ?_) fun n fut coming => ?_
    · have other : v ≠ w := fun same => not_enters_of_busy busy (same ▸ enters)
      rwa [Enters, workers, hasTasks, Function.update_of_ne other]
    · rw [Asleep, workers, hasTasks] at sleeps
      have other : v ≠ w := by
        rintro rfl
        rw [Function.update_self] at sleeps
        exact up sleeps.1
      rwa [Function.update_of_ne other] at sleeps
    · rwa [calls]

end Awakened

section Owed

variable [DecidableEq ω]

def workerCost (l : Loop ω) (w : ω) : Nat :=
  match l.workers w with
  | .check => 1
  | .waiting => if w ∈ l.hasTasks.waiting then 0 else 1
  | .took _ => 4
  | .running _ _ => 3
  | .store _ => 2

/-- The steps of a call, with those of the worker that it releases. -/
def callCost : CreatePc → Nat
  | .before => 0
  | .push _ _ => 8
  | .signal _ => 2
  | .returned _ => 0

def owed [Fintype ω] (l : Loop ω) (made : Finset Nat) : Nat :=
  ∑ w, l.workerCost w + ∑ n ∈ made, callCost (l.calls n) + 5 * l.q.blocks.length

variable {l m : Loop ω} {w : ω}

theorem workerCost_of_enters (enters : l.Enters w) : l.workerCost w = 1 := by
  rcases enters with check | ⟨waiting, released⟩
  · simp [workerCost, check]
  · simp [workerCost, waiting, released]

theorem workerCost_congr (workers : m.workers w = l.workers w)
    (waiting : w ∈ m.hasTasks.waiting ↔ w ∈ l.hasTasks.waiting) : m.workerCost w = l.workerCost w := by
  simp only [workerCost, workers, waiting]

theorem workerCost_released (workers : m.workers w = l.workers w) : m.workerCost w ≤ l.workerCost w + 1 := by
  simp only [workerCost, workers]
  cases l.workers w with
  | waiting =>
    dsimp only
    split <;> omega
  | _ => exact Nat.le_succ _

/-- Every step of a call or of a worker leaves less to do. -/
theorem owed_falls [Fintype ω] {e : LoopEvent ω} (change : Change l m e) (active : l.Active e) {made : Finset Nat}
    (within : ∀ n, l.calls n ≠ .before → n ∈ made) : m.owed made < l.owed made := by
  unfold owed
  cases change with
  | still idle q hasTasks calls workers => exact absurd active idle
  | create call crt fut padding pc before pushes q hasTasks calls workers => exact active.elim
  | wake v q hasTasks calls workers => exact active.elim
  | push call block fut pushing q hasTasks calls workers =>
    have same : ∑ v, m.workerCost v = ∑ v, l.workerCost v :=
      Finset.sum_congr rfl fun v _ => workerCost_congr (by rw [workers]) (by rw [hasTasks])
    have drop : ∑ n ∈ made, callCost (m.calls n) + 6 ≤ ∑ n ∈ made, callCost (l.calls n) := by
      apply sum_le_of_drop (within call (by simp [pushing]))
      · intro n other
        rw [calls, Function.update_of_ne other]
      · simp [calls, pushing, callCost]
    rw [same, q, blocks_pushBlock, List.length_append, List.length_singleton]
    omega
  | signal call choice fut signalling q hasTasks calls workers =>
    have drop : ∑ n ∈ made, callCost (m.calls n) + 2 ≤ ∑ n ∈ made, callCost (l.calls n) := by
      apply sum_le_of_drop (within call (by simp [signalling]))
      · intro n other
        rw [calls, Function.update_of_ne other]
      · simp [calls, signalling, callCost]
    have raise : ∑ v, m.workerCost v ≤ ∑ v, l.workerCost v + 1 := by
      cases picked : l.hasTasks.picked choice with
      | none =>
        refine (Finset.sum_congr rfl fun v _ => workerCost_congr (by rw [workers]) ?_).le.trans (Nat.le_succ _)
        rw [hasTasks, Condition.mem_signal, picked]
        simp
      | some released =>
        refine @sum_le_of_raise _ _ _ _ _ released _ (fun v other => ?_) ?_
        · apply workerCost_congr (by rw [workers])
          rw [hasTasks, Condition.mem_signal, picked]
          simp [Ne.symm other]
        · exact workerCost_released (by rw [workers])
    rw [q]
    omega
  | sleep v enters empty q hasTasks calls workers =>
    have drop : ∑ u, m.workerCost u + 1 ≤ ∑ u, l.workerCost u := by
      apply sum_le_of_drop (Finset.mem_univ v)
      · intro u other
        apply workerCost_congr
        · rw [workers, Function.update_of_ne other]
        · simp [hasTasks, other]
      · rw [workerCost_of_enters enters]
        simp [workerCost, workers, hasTasks]
    rw [calls, q]
    omega
  | take v enters block rest task shape q hasTasks calls workers =>
    have raise : ∑ u, m.workerCost u ≤ ∑ u, l.workerCost u + 3 := by
      refine @sum_le_of_raise _ _ _ _ _ v _ (fun u other => ?_) ?_
      · apply workerCost_congr
        · rw [workers, Function.update_of_ne other]
        · rw [hasTasks]
      · rw [workerCost_of_enters enters]
        simp [workerCost, workers]
    rw [calls, q, shape, List.length_cons]
    omega
  | move v pc busy next q hasTasks calls workers =>
    have drop : ∑ u, m.workerCost u + 1 ≤ ∑ u, l.workerCost u := by
      apply sum_le_of_drop (Finset.mem_univ v)
      · intro u other
        apply workerCost_congr
        · rw [workers, Function.update_of_ne other]
        · rw [hasTasks]
      · have here : m.workers v = pc := by
          rw [workers, Function.update_self]
        rcases next with ⟨task, fut, crt, at_, rfl⟩ | ⟨fut, crt, at_, rfl⟩ | ⟨⟨fut, at_⟩, rfl⟩ <;>
          simp [workerCost, at_, here]
    rw [calls, q]
    omega

end Owed

section Rest

variable {b : Blocking} {l : Loop ω} {stage : Nat → Stage ω} {line : List Nat}

theorem asleep_or_waits (quiet : ∀ e, ¬l.Due b e) (w : ω) : l.Asleep w ∨ l.Waits b w := by
  cases at_ : l.workers w with
  | check => exact absurd ⟨.inl at_, fun _ _ same => by cases same⟩ (quiet (.take w))
  | waiting =>
    by_cases inside : w ∈ l.hasTasks.waiting
    · exact .inl ⟨at_, inside⟩
    · exact absurd ⟨.inr ⟨at_, inside⟩, fun _ _ same => by cases same⟩ (quiet (.take w))
  | took task => exact absurd ⟨⟨task, at_⟩, fun _ _ same => by cases same⟩ (quiet (.start w))
  | running fut crt =>
    by_cases waits : l.Waits b w
    · exact .inr waits
    · refine absurd ⟨⟨fut, crt, at_⟩, fun v result same => ?_⟩ (quiet (.finish w 0))
      cases same
      exact waits
  | store fut => exact absurd ⟨⟨fut, at_⟩, fun _ _ same => by cases same⟩ (quiet (.store w))

theorem started_of_asleep (tracks : l.Tracks stage line) (awakened : l.Awakened) (quiet : ∀ e, ¬l.Due b e) {w : ω}
    (asleep : l.Asleep w) {n : Nat} (made : l.calls n ≠ .before) : n ∈ l.started := by
  have empty : l.q.blocks = [] := by
    obtain ⟨ws, ns, coming, signalling, enough⟩ := awakened
    have nobody : ws = ∅ := Finset.eq_empty_of_forall_notMem fun v member =>
      quiet (.take v) ⟨coming v member, fun _ _ same => by cases same⟩
    have none_left : ns = ∅ := Finset.eq_empty_of_forall_notMem fun n member =>
      quiet (.signal n 0) ⟨signalling n member, fun _ _ same => by cases same⟩
    have bound := enough ⟨w, asleep⟩
    rw [nobody, none_left] at bound
    exact List.length_eq_zero_iff.mp (Nat.le_zero.mp bound)
  have callAt := tracks.calls n
  cases found : stage n with
  | absent =>
    rw [found] at callAt
    exact absurd callAt made
  | created fut crt =>
    rw [found] at callAt
    obtain ⟨padding, pushing⟩ := callAt
    exact absurd ⟨⟨_, _, pushing⟩, fun _ _ same => by cases same⟩ (quiet (.push n))
  | queued fut crt =>
    obtain ⟨block, member, -⟩ := leads_queued tracks found
    rw [empty] at member
    cases member
  | taken v fut crt =>
    have has := (tracks.workers.holds n v (.took ⟨true, fut⟩) (by rw [found]; rfl)).1
    exact absurd ⟨⟨_, Option.some.inj has⟩, fun _ _ same => by cases same⟩ (quiet (.start v))
  | _ => exact (tracks.recorded.started n).mpr (by rw [found]; rfl)

theorem outstanding_of_waits (tracks : l.Tracks stage line) {w : ω} (waits : l.Waits b w) :
    ∃ n ∈ l.outstanding b, ∃ fut crt, stage n = .running w fut crt := by
  obtain ⟨fut, crt, c, running, there, waiting⟩ := waits
  obtain ⟨n, isRunning, -, coroutine⟩ := boxes_of_running tracks running
  have same : c = ⟨n⟩ := Option.some.inj (there.symm.trans coroutine)
  subst same
  refine ⟨n, ⟨fun before => ?_, waiting, fun ended => ?_⟩, fut, crt, isRunning⟩
  · have absent := absent_of_before (tracks.calls n) before
    rw [isRunning] at absent
    cases absent
  · have returned := (tracks.recorded.returned n).mp ended
    rw [isRunning] at returned
    cases returned

theorem running_of_outstanding (tracks : l.Tracks stage line) {n : Nat} (isOutstanding : n ∈ l.outstanding b)
    (started : n ∈ l.started) : ∃ w fut crt, stage n = .running w fut crt := by
  have begun := (tracks.recorded.started n).mp started
  have pending : (stage n).returned ≠ true := fun ended => isOutstanding.2.2 ((tracks.recorded.returned n).mpr ended)
  cases found : stage n with
  | running w fut crt => exact ⟨w, fut, crt, rfl⟩
  | absent | created fut crt | queued fut crt | taken w fut crt =>
    rw [found] at begun
    cases begun
  | _ =>
    rw [found] at pending
    exact absurd rfl pending

variable [Fintype ω]

/-- When nothing is owed, a worker sleeps exactly if fewer calls wait than there
are workers. -/
theorem exists_asleep_iff (tracks : l.Tracks stage line) (awakened : l.Awakened) (quiet : ∀ e, ¬l.Due b e) :
    (∃ w, l.Asleep w) ↔ (l.outstanding b).encard < Fintype.card ω := by
  constructor
  · rintro ⟨w, asleep⟩
    have running : ∀ n : l.outstanding b, ∃ v fut crt, stage n = .running v fut crt := fun n =>
      running_of_outstanding tracks n.2 (started_of_asleep tracks awakened quiet asleep n.2.1)
    choose worker fut crt isRunning using running
    have held : ∀ n : l.outstanding b, (stage n).held = some (worker n, .running (fut n) (crt n)) := fun n => by
      rw [isRunning n]; rfl
    have injective : Function.Injective worker := by
      intro n k same
      exact Subtype.ext (tracks.workers.alone n k (worker n) _ _ (held n) (same ▸ held k))
    have missed : w ∉ Set.range worker := by
      rintro ⟨n, same⟩
      have busy := (tracks.workers.holds n (worker n) _ (held n)).1
      rw [same, asleep.1] at busy
      cases busy
    calc (l.outstanding b).encard = (Set.range worker).encard := by
          rw [← Set.image_univ, injective.injOn.encard_image, Set.encard_univ]
          rfl
      _ < (Set.univ : Set ω).encard :=
          (Set.toFinite _).encard_lt_encard ((Set.ssubset_univ_iff).mpr fun all => missed (all ▸ Set.mem_univ w))
      _ = Fintype.card ω := by rw [Set.encard_univ, ENat.card_eq_coe_fintype_card]
  · intro few
    by_contra nobody
    have all : ∀ w, ∃ n ∈ l.outstanding b, ∃ fut crt, stage n = .running w fut crt := fun w =>
      outstanding_of_waits tracks ((asleep_or_waits quiet w).resolve_left fun asleep => nobody ⟨w, asleep⟩)
    choose call isOutstanding fut crt isRunning using all
    have injective : Function.Injective call := by
      intro w v same
      have both := isRunning v
      rw [← same, isRunning w] at both
      cases both
      rfl
    refine absurd few (not_lt.mpr ?_)
    calc (Fintype.card ω : ℕ∞) = (Set.range call).encard := by
          rw [← Set.image_univ, injective.injOn.encard_image, Set.encard_univ, ENat.card_eq_coe_fintype_card]
      _ ≤ (l.outstanding b).encard := Set.encard_le_encard (Set.range_subset_iff.mpr isOutstanding)

end Rest

section Runs

variable [DecidableEq ω] {b : Blocking} {l : Loop ω} {stage : Nat → Stage ω} {line : List Nat}

def Reachable (l : Loop ω) : Prop :=
  ∃ events, Runs.Along step Admits (init ω) events ∧ Runs.run step (init ω) events = l

/-- The state in which no step is due any more. -/
def Settles (b : Blocking) (l rest : Loop ω) : Prop :=
  ∃ steps, Runs.Along step (Due b) l steps ∧ Runs.run step l steps = rest ∧ ∀ e, ¬rest.Due b e

structure Sound (made : Finset Nat) (l : Loop ω) : Prop where
  tracks : ∃ stage line, l.Tracks stage line
  blocked : l.Blocked
  awakened : l.Awakened
  within : ∀ n, l.calls n ≠ .before → n ∈ made

def madeBy : LoopEvent ω → Finset Nat
  | .create call _ _ _ => {call}
  | _ => ∅

theorem before_change {m : Loop ω} {e : LoopEvent ω} (change : Change l m e) (n : Nat) :
    (m.calls n = .before ↔ l.calls n = .before) ∨ n ∈ madeBy e := by
  have moved : ∀ {call : Nat} {pc : CreatePc}, m.calls = Function.update l.calls call pc → l.calls call ≠ .before →
      pc ≠ .before → (m.calls n = .before ↔ l.calls n = .before) := by
    intro call pc calls past made
    rw [calls]
    by_cases same : n = call
    · subst same
      rw [Function.update_self]
      exact iff_of_false made past
    · rw [Function.update_of_ne same]
  cases change with
  | create call crt fut padding pc before pushes q hasTasks calls workers =>
    by_cases same : n = call
    · exact .inr (Finset.mem_singleton.mpr same)
    · exact .inl (by rw [calls, Function.update_of_ne same])
  | push call block fut pushing q hasTasks calls workers =>
    exact .inl (moved calls (by simp [pushing]) (by simp))
  | signal call choice fut signalling q hasTasks calls workers =>
    exact .inl (moved calls (by simp [signalling]) (by simp))
  | still idle q hasTasks calls workers | wake w q hasTasks calls workers
  | move w pc busy next q hasTasks calls workers => exact .inl (by rw [calls])
  | sleep w enters empty q hasTasks calls workers => exact .inl (by rw [calls])
  | take w enters block rest task shape q hasTasks calls workers => exact .inl (by rw [calls])

theorem sound_step {made : Finset Nat} (sound : l.Sound made) {e : LoopEvent ω} (admitted : l.Admits e) :
    (l.step e).Sound (made ∪ madeBy e) := by
  obtain ⟨⟨stage, line, tracks⟩, blocked, awakened, within⟩ := sound
  have change := change_step tracks e
  refine ⟨tracked_step tracks e admitted, blocked_change blocked change, awakened_change awakened blocked change, ?_⟩
  intro n past
  rw [Finset.mem_union]
  exact (before_change change n).imp_left fun same => within n fun before => past (same.mpr before)

omit [DecidableEq ω] in
theorem sound_init : (init ω).Sound ∅ where
  tracks := ⟨_, _, tracks_init⟩
  blocked w member := by cases member
  awakened := ⟨∅, ∅, fun w member => absurd member (Finset.notMem_empty w),
    fun n member => absurd member (Finset.notMem_empty n), fun _ => Nat.zero_le _⟩
  within n past := absurd rfl past

theorem Reachable.sound (reachable : l.Reachable) : ∃ made, l.Sound made := by
  obtain ⟨events, admitted, rfl⟩ := reachable
  have throughout : Runs.Throughout step (fun l : Loop ω => ∃ made, l.Sound made) (init ω) events :=
    Runs.throughout_of_preserved (fun l e ⟨made, sound⟩ allowed => ⟨_, sound_step sound allowed⟩) ⟨∅, sound_init⟩ admitted
  exact throughout.last

omit [DecidableEq ω] in
theorem madeBy_of_active {e : LoopEvent ω} (active : l.Active e) : madeBy e = ∅ := by
  cases e <;> first | rfl | exact active.elim

theorem sound_due {made : Finset Nat} (sound : l.Sound made) {e : LoopEvent ω} (due : l.Due b e) :
    (l.step e).Sound made := by
  have admitted : l.Admits e := by
    cases e <;> first | exact trivial | exact due.1.elim
  have after := sound_step sound admitted
  rwa [madeBy_of_active due.1, Finset.union_empty] at after

theorem before_due (tracks : l.Tracks stage line) {e : LoopEvent ω} (due : l.Due b e) (n : Nat) :
    (l.step e).calls n = .before ↔ l.calls n = .before := by
  refine (before_change (change_step tracks e) n).resolve_right fun member => ?_
  rw [madeBy_of_active due.1] at member
  exact Finset.notMem_empty n member

theorem returned_due (tracks : l.Tracks stage line) {e : LoopEvent ω} (due : l.Due b e) {n : Nat}
    (waits : b.waits n = true) : n ∈ (l.step e).returned.map Prod.fst ↔ n ∈ l.returned.map Prod.fst := by
  cases e with
  | finish w result =>
    obtain ⟨⟨fut, crt, running⟩, helped⟩ := due
    obtain ⟨k, isRunning, future, coroutine⟩ := boxes_of_running tracks running
    have other : n ≠ k := by
      rintro rfl
      exact helped w result rfl ⟨fut, crt, ⟨n⟩, running, coroutine, waits⟩
    have returned : (l.step (.finish w result)).returned = l.returned ++ [(k, result)] := by
      simp only [step, running, future, coroutine]
      rfl
    simp [returned, other]
  | take w =>
    have returned : (l.take w).returned = l.returned := by
      unfold take
      repeat' split
      all_goals rfl
    have enters : l.Enters w := due.1
    rw [step, if_pos enters, returned]
  | start w =>
    obtain ⟨task, took⟩ := due.1
    obtain ⟨k, fut, crt, -, starts⟩ := step_start tracks took
    rw [starts]
    rfl
  | push call =>
    obtain ⟨block, fut, pushing⟩ := due.1
    simp only [step, pushing]
    rfl
  | signal call choice =>
    obtain ⟨fut, signalling⟩ := due.1
    simp only [step, signalling]
    rfl
  | store w =>
    obtain ⟨fut, stores⟩ := due.1
    simp only [step, stores]
    rfl
  | _ => exact due.1.elim

/-- The calls that wait and have not returned stay the same while no coroutine
that waits returns. -/
theorem outstanding_due (tracks : l.Tracks stage line) {e : LoopEvent ω} (due : l.Due b e) :
    (l.step e).outstanding b = l.outstanding b := by
  ext n
  have made := before_due tracks due n
  exact and_congr made.not (and_congr_right fun waits => (returned_due tracks due waits).not)

theorem sound_settles {made : Finset Nat} {rest : Loop ω} (sound : l.Sound made) (settles : Settles b l rest) :
    rest.Sound made ∧ rest.outstanding b = l.outstanding b ∧ (∀ n, rest.calls n = .before ↔ l.calls n = .before) ∧
      ∀ e, ¬rest.Due b e := by
  obtain ⟨steps, along, rfl, quiet⟩ := settles
  have throughout : Runs.Throughout step (fun m : Loop ω => m.Sound made ∧ m.outstanding b = l.outstanding b ∧
      ∀ n, m.calls n = .before ↔ l.calls n = .before) l steps := by
    refine Runs.throughout_of_preserved (fun m e ⟨sound, same, calls⟩ due => ?_) ⟨sound, rfl, fun n => Iff.rfl⟩ along
    obtain ⟨stage, line, tracks⟩ := sound.tracks
    refine ⟨sound_due sound due, (outstanding_due tracks due).trans same, fun n => ?_⟩
    exact (before_due tracks due n).trans (calls n)
  obtain ⟨sound, same, calls⟩ := throughout.last
  exact ⟨sound, same, calls, quiet⟩

def Crowded (b : Blocking) (l : Loop ω) : Prop :=
  ∀ w, ∃ n fut crt, l.workers w = .running fut crt ∧ l.coroutines crt = some ⟨n⟩ ∧ b.waits n = true ∧
    ∀ m ∈ l.started, b.helps m n = false

/-- A crowded pool does nothing, whatever is submitted to it. -/
theorem crowded_step (crowded : l.Crowded b) {e : LoopEvent ω} (admitted : l.Admits e) (obeys : l.Obeys b e) :
    (l.step e).workers = l.workers ∧ (l.step e).started = l.started ∧ (l.step e).returned = l.returned ∧
      ∀ crt c, l.coroutines crt = some c → (l.step e).coroutines crt = some c := by
  have still : l.workers = l.workers ∧ l.started = l.started ∧ l.returned = l.returned ∧
      ∀ crt c, l.coroutines crt = some c → l.coroutines crt = some c := ⟨rfl, rfl, rfl, fun _ _ => id⟩
  cases e with
  | create call crt fut padding =>
    simp only [step]
    split
    · refine ⟨rfl, rfl, rfl, fun other c there => ?_⟩
      -- The address of the new coroutine is nobody else's.
      have apart : other ≠ crt := by
        rintro rfl
        rw [admitted.2.2.1] at there
        cases there
      exact (Function.update_of_ne apart ..).trans there
    · exact still
  | push call =>
    simp only [step]
    split <;> exact still
  | signal call choice =>
    simp only [step]
    split <;> exact still
  | take w =>
    obtain ⟨n, fut, crt, running, -⟩ := crowded w
    rw [step, if_neg (not_enters_of_busy (by rw [running]; rfl))]
    exact still
  | wake w => exact still
  | start w =>
    obtain ⟨n, fut, crt, running, -⟩ := crowded w
    have out : l.step (.start w) = l := by
      simp only [step, running]
    rwa [out]
  | finish w result =>
    obtain ⟨n, fut, crt, running, there, waits, helpless⟩ := crowded w
    obtain ⟨m, started, helps⟩ := obeys fut crt ⟨n⟩ running there waits
    rw [helpless m started] at helps
    cases helps
  | store w =>
    obtain ⟨n, fut, crt, running, -⟩ := crowded w
    have out : l.step (.store w) = l := by
      simp only [step, running]
    rwa [out]
  | await fut =>
    simp only [step]
    repeat' split
    all_goals exact still
  | release fut =>
    simp only [step]
    split <;> exact still

theorem Crowded.step (crowded : l.Crowded b) {e : LoopEvent ω} (admitted : l.Admits e) (obeys : l.Obeys b e) :
    (l.step e).Crowded b := by
  obtain ⟨workers, started, -, coroutines⟩ := crowded_step crowded admitted obeys
  intro w
  obtain ⟨n, fut, crt, running, there, waits, helpless⟩ := crowded w
  exact ⟨n, fut, crt, by rw [workers]; exact running, coroutines crt _ there, waits, by rwa [started]⟩

theorem crowded_run {later : List (LoopEvent ω)} (crowded : l.Crowded b)
    (along : Runs.Along step (fun l e => l.Admits e ∧ l.Obeys b e) l later) :
    (Runs.run step l later).started = l.started ∧ (Runs.run step l later).returned = l.returned := by
  have throughout : Runs.Throughout step (fun m : Loop ω => m.Crowded b ∧ m.started = l.started ∧
      m.returned = l.returned) l later := by
    refine Runs.throughout_of_preserved (fun m e ⟨crowded, started, returned⟩ allowed => ?_) ⟨crowded, rfl, rfl⟩ along
    obtain ⟨-, sameStarted, sameReturned, -⟩ := crowded_step crowded allowed.1 allowed.2
    exact ⟨crowded.step allowed.1 allowed.2, sameStarted.trans started, sameReturned.trans returned⟩
  exact throughout.last.2

omit [DecidableEq ω] in
theorem crowded_of_many [Fintype ω] {rest : Loop ω} (tracks : rest.Tracks stage line) (awakened : rest.Awakened)
    (quiet : ∀ e, ¬rest.Due b e) (many : Fintype.card ω ≤ (rest.outstanding b).encard)
    (helpless : ∀ n ∈ rest.outstanding b, ∀ m, rest.calls m ≠ .before → b.helps m n = false) : rest.Crowded b := by
  intro w
  have nobody : ¬∃ v, rest.Asleep v := (exists_asleep_iff tracks awakened quiet).not.mpr (not_lt.mpr many)
  have waits := (asleep_or_waits quiet w).resolve_left fun asleep => nobody ⟨w, asleep⟩
  obtain ⟨n, isOutstanding, fut, crt, isRunning⟩ := outstanding_of_waits tracks waits
  have running := (tracks.workers.holds n w (.running fut crt) (by rw [isRunning]; rfl)).1
  have there := (tracks.coroutines.holds n crt ⟨n⟩ (by rw [isRunning]; rfl)).1
  refine ⟨n, fut, crt, Option.some.inj running, there, isOutstanding.2.1, fun m started => ?_⟩
  obtain ⟨other, past⟩ := submitted_of_callAt (tracks.calls m) ((tracks.recorded.started m).mp started)
  refine helpless n isOutstanding m fun before => ?_
  rcases past with past | past <;> rw [before] at past <;> cases past

variable [Fintype ω]

theorem owed_due {made : Finset Nat} (sound : l.Sound made) {e : LoopEvent ω} (due : l.Due b e) :
    (l.step e).owed made < l.owed made := by
  obtain ⟨stage, line, tracks⟩ := sound.tracks
  exact owed_falls (change_step tracks e) due.1 sound.within

/-- The steps that are due come to an end, whoever waits. -/
theorem Reachable.settles (reachable : l.Reachable) (b : Blocking) :
    (∃ bound, ∀ steps, Runs.Along step (Due b) l steps → steps.length ≤ bound) ∧ ∃ rest, Settles b l rest := by
  obtain ⟨made, sound⟩ := reachable.sound
  have kept : ∀ (m : Loop ω) e, m.Sound made → m.Due b e → (m.step e).Sound made := fun _ _ sound due => sound_due sound due
  have falls : ∀ (m : Loop ω) e, m.Sound made → m.Due b e → (m.step e).owed made < m.owed made :=
    fun _ _ sound due => owed_due sound due
  refine ⟨⟨l.owed made, fun steps along => ?_⟩, ?_⟩
  · have bound := Runs.length_add_rank_le (fun m : Loop ω => m.owed made) kept falls sound along
    omega
  · obtain ⟨steps, along, quiet⟩ := Runs.exists_rest (fun m : Loop ω => m.owed made) kept falls sound
    exact ⟨_, steps, along, rfl, quiet⟩

theorem Reachable.serves (reachable : l.Reachable) (few : (l.outstanding b).encard < Fintype.card ω) {rest : Loop ω}
    (settles : Settles b l rest) {n : Nat} (past : l.calls n ≠ .before) : n ∈ rest.started := by
  obtain ⟨made, sound⟩ := reachable.sound
  obtain ⟨sound, same, calls, quiet⟩ := sound_settles sound settles
  obtain ⟨stage, line, tracks⟩ := sound.tracks
  obtain ⟨w, asleep⟩ := (exists_asleep_iff tracks sound.awakened quiet).mpr (same ▸ few)
  exact started_of_asleep tracks sound.awakened quiet asleep ((calls n).not.mpr past)

theorem Reachable.crowded (reachable : l.Reachable) (many : Fintype.card ω ≤ (l.outstanding b).encard)
    (helpless : ∀ n ∈ l.outstanding b, ∀ m, l.calls m ≠ .before → b.helps m n = false) {rest : Loop ω}
    (settles : Settles b l rest) : rest.Crowded b := by
  obtain ⟨made, sound⟩ := reachable.sound
  obtain ⟨sound, same, calls, quiet⟩ := sound_settles sound settles
  obtain ⟨stage, line, tracks⟩ := sound.tracks
  rw [← same] at many helpless
  refine crowded_of_many tracks sound.awakened quiet many fun n isOutstanding m past => ?_
  exact helpless n isOutstanding m ((calls m).not.mp past)

/-- While fewer calls wait than there are workers, the pool comes to rest, and
by then it has started every coroutine, in whatever order its steps are taken. -/
theorem served_of_few (b : Blocking) (reachable : l.Reachable) (few : (l.outstanding b).encard < Fintype.card ω) :
    (∃ bound, ∀ steps, Runs.Along step (Due b) l steps → steps.length ≤ bound) ∧ (∃ rest, Settles b l rest) ∧
      ∀ rest, Settles b l rest → ∀ n, l.calls n ≠ .before → n ∈ rest.started := by
  obtain ⟨bounded, rests⟩ := reachable.settles b
  exact ⟨bounded, rests, fun rest settles n past => reachable.serves few settles past⟩

/-- Once as many calls wait as there are workers, and none of those made so far
helps them, the pool comes to a state from which it never starts a coroutine
again, what helps them included. -/
theorem starved_of_many (b : Blocking) (reachable : l.Reachable)
    (many : Fintype.card ω ≤ (l.outstanding b).encard)
    (helpless : ∀ n ∈ l.outstanding b, ∀ m, l.calls m ≠ .before → b.helps m n = false) :
    (∃ rest, Settles b l rest) ∧ ∀ rest, Settles b l rest → ∀ later : List (LoopEvent ω),
      Runs.Along step (fun l e => l.Admits e ∧ l.Obeys b e) rest later →
        (Runs.run step rest later).started = rest.started ∧ (Runs.run step rest later).returned = rest.returned :=
  ⟨(reachable.settles b).2, fun _ settles _ obeying => crowded_run (reachable.crowded many helpless settles) obeying⟩

end Runs

section Requests

/-- Requests have even numbers; the next number is that of the handler of the
answer. -/
def requests : Blocking := ⟨fun n => n % 2 = 0, fun m n => m = n + 1⟩

def oneRequest (ω : Type) (w : ω) : List (LoopEvent ω) :=
  [.create 0 16 64 (fun _ => 0), .push 0, .signal 0 0, .take w, .start w]

def handler (ω : Type) : List (LoopEvent ω) := [.create 1 32 96 (fun _ => 0), .push 1, .signal 1 0]

theorem served_of_few_handler :
    ∃ rest, Settles requests (Runs.run step (init Bool) (oneRequest Bool true ++ handler Bool)) rest ∧
      1 ∈ rest.started := by
  have few : ((Runs.run step (init Bool) (oneRequest Bool true ++ handler Bool)).outstanding requests).encard <
      Fintype.card Bool := by
    have single : (Runs.run step (init Bool) (oneRequest Bool true ++ handler Bool)).outstanding requests ⊆ {0} := by
      rintro n ⟨made, waits, -⟩
      match n with
      | 0 => exact rfl
      | 1 => cases waits
      | n + 2 => exact absurd rfl made
    refine (Set.encard_le_encard single).trans_lt ?_
    rw [Set.encard_singleton]
    decide
  obtain ⟨-, ⟨rest, settles⟩, served⟩ :=
    served_of_few requests ⟨oneRequest Bool true ++ handler Bool, by decide, rfl⟩ few
  exact ⟨rest, settles, served rest settles 1 (by decide)⟩

def requested : Loop Unit := Runs.run step (init Unit) (oneRequest Unit ())

theorem starved_of_many_handler :
    (Runs.run step requested (handler Unit)).started = [0] := by
  have many : Fintype.card Unit ≤ (requested.outstanding requests).encard := by
    have member : 0 ∈ requested.outstanding requests :=
      ⟨by decide, by decide, by decide⟩
    have one := Set.encard_le_encard (Set.singleton_subset_iff.mpr member)
    rwa [Set.encard_singleton] at one
  have helpless : ∀ n ∈ requested.outstanding requests,
      ∀ m, requested.calls m ≠ .before → requests.helps m n = false := by
    intro n _ m made
    match m with
    | 0 => rfl
    | m + 1 => exact absurd rfl made
  have quiet : ∀ e, ¬requested.Due requests e := by
    rintro e ⟨active, helped⟩
    cases e with
    | push call =>
      obtain ⟨block, fut, pushing⟩ := active
      match call with
      | 0 => cases pushing
      | _ + 1 => cases pushing
    | signal call choice =>
      obtain ⟨fut, signalling⟩ := active
      match call with
      | 0 => cases signalling
      | _ + 1 => cases signalling
    | finish w result => exact helped w result rfl ⟨64, 16, ⟨0⟩, rfl, rfl, rfl⟩
    | take w =>
      rcases active with check | ⟨waiting, -⟩
      · cases check
      · cases waiting
    | start w =>
      obtain ⟨task, took⟩ := active
      cases took
    | store w =>
      obtain ⟨fut, stores⟩ := active
      cases stores
    | _ => exact active
  have settles : Settles requests requested requested := ⟨[], trivial, rfl, quiet⟩
  have obeying : Runs.Along step (fun l e => l.Admits e ∧ l.Obeys requests e) requested (handler Unit) :=
    ⟨⟨by decide, trivial⟩, ⟨trivial, trivial⟩, ⟨trivial, trivial⟩, trivial⟩
  have starved := starved_of_many requests ⟨oneRequest Unit (), by decide, rfl⟩ many helpless
  exact (starved.2 requested settles (handler Unit) obeying).1

end Requests

end Loop

end Dcn
