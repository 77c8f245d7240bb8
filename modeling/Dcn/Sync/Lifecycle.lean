import Mathlib.Data.List.Nodup
import Dcn.Foundation.Custody
import Dcn.Sync.Pool

/-! What the pool does with each coroutine.

Every call of async_create goes through its stages in one direction. A stage
says who has the boxes of the call and what is in them; the order in which the
queue has them is kept beside the stages. No step of the pool moves more than
one call on.
-/

set_option autoImplicit false

namespace Dcn

/-- How far the coroutine of a call is, with the future and the coroutine, the
worker that has it, and its result. -/
inductive Stage (ω : Type) where
  | absent
  | created (fut crt : UInt64)
  | queued (fut crt : UInt64)
  | taken (w : ω) (fut crt : UInt64)
  | running (w : ω) (fut crt : UInt64)
  | finished (w : ω) (fut crt result : UInt64)
  | ready (fut crt result : UInt64)
  | over

namespace Stage

variable {ω : Type}

def future (n : Nat) : Stage ω → Option (UInt64 × FutureBox)
  | .created fut crt | .queued fut crt | .taken _ fut crt | .running _ fut crt =>
    some (fut, futureInit n (pointerBytes crt))
  | .finished _ fut crt result => some (fut, ⟨n, true, pointerBytes crt, loopWorkerOut [] result, false⟩)
  | .ready fut crt result => some (fut, ⟨n, true, pointerBytes crt, loopWorkerOut [] result, true⟩)
  | .absent | .over => none

def coroutine (n : Nat) : Stage ω → Option (UInt64 × Coroutine)
  | .created _ crt | .queued _ crt | .taken _ _ crt | .running _ _ crt => some (crt, ⟨n⟩)
  | _ => none

def held : Stage ω → Option (ω × WorkerPc)
  | .taken w fut _ => some (w, .took ⟨true, fut⟩)
  | .running w fut crt => some (w, .running fut crt)
  | .finished w fut _ _ => some (w, .store fut)
  | _ => none

def task : Stage ω → Option Task
  | .queued fut _ => some ⟨true, fut⟩
  | _ => none

def started : Stage ω → Bool
  | .running .. | .finished .. | .ready .. | .over => true
  | _ => false

def returned : Stage ω → Bool
  | .finished .. | .ready .. | .over => true
  | _ => false

def result : Stage ω → Option UInt64
  | .finished _ _ _ result | .ready _ _ result => some result
  | _ => none

def CallAt : Stage ω → CreatePc → Prop
  | .absent, pc => pc = .before
  | .created fut _, pc => ∃ padding, pc = .push (Task.bytes ⟨true, fut⟩ padding) fut
  | _, pc => ∃ fut, pc = .signal fut ∨ pc = .returned fut

end Stage

def WorkerPc.free : WorkerPc → Bool
  | .check | .waiting => true
  | _ => false

namespace Loop

variable {ω : Type}

structure Lined (q : Queue) (task : Nat → Option Task) (line : List Nat) : Prop where
  inside : ∀ n, n ∈ line ↔ (task n).isSome = true
  distinct : line.Nodup
  tasks : q.blocks.map (fun block => some (Task.ofBytes block)) = line.map task
  sizes : ∀ block ∈ q.blocks, block.length = 16

structure Recorded (begun : List Nat) (ended : List (Nat × UInt64)) (stage : Nat → Stage ω) : Prop where
  started : ∀ n, n ∈ begun ↔ (stage n).started = true
  once : begun.Nodup
  returned : ∀ n, n ∈ ended.map Prod.fst ↔ (stage n).returned = true
  own : (ended.map Prod.fst).Nodup
  result : ∀ n r, (stage n).result = some r → (n, r) ∈ ended

/-- The stages say who has which future, coroutine and worker, where every call
is, and what is in the queue and in the records. -/
structure Tracks (l : Loop ω) (stage : Nat → Stage ω) (line : List Nat) : Prop where
  futures : Custody l.futures (fun box => box.pool = true) fun n => (stage n).future n
  coroutines : Custody l.coroutines (fun _ => True) fun n => (stage n).coroutine n
  workers : Custody (fun w => some (l.workers w)) (fun pc => pc.free = false) fun n => (stage n).held
  calls : ∀ n, (stage n).CallAt (l.calls n)
  lined : Lined l.q (fun n => (stage n).task) line
  recorded : Recorded l.started l.returned stage

section Lined

variable {q : Queue} {task : Nat → Option Task} {line : List Nat} {n : Nat}

theorem Lined.push (lined : Lined q task line) (fresh : task n = none) (t : Task) (padding : Fin 7 → UInt8) :
    Lined (pushBlock q (t.bytes padding)) (Function.update task n (some t)) (line ++ [n]) := by
  have outside : n ∉ line := by
    intro member
    have queued := (lined.inside n).mp member
    rw [fresh] at queued
    cases queued
  refine ⟨fun m => ?_, ?_, ?_, fun block member => ?_⟩
  · rw [List.mem_append, List.mem_singleton, lined.inside]
    by_cases same : m = n
    · subst same
      simp
    · simp [same]
  · rw [List.nodup_append]
    refine ⟨lined.distinct, List.nodup_singleton n, fun m member k last same => outside ?_⟩
    rw [List.mem_singleton] at last
    rwa [← last, ← same]
  · have before : line.map (Function.update task n (some t)) = line.map task := by
      refine List.map_congr_left fun m member => ?_
      have other : m ≠ n := fun same => outside (same ▸ member)
      exact Function.update_of_ne other ..
    rw [blocks_pushBlock, List.map_append, List.map_append, lined.tasks, before]
    simp [ofBytes_bytes]
  · rcases List.mem_append.mp member with old | new
    · exact lined.sizes block old
    · rw [List.mem_singleton.mp new]
      exact length_taskBytes t padding

theorem Lined.pop (lined : Lined q task line) {block : Block} {rest : List Block} (shape : q.blocks = block :: rest) :
    ∃ n later, line = n :: later ∧ task n = some (.ofBytes block) ∧ Lined ⟨rest⟩ (Function.update task n none) later := by
  have tasks := lined.tasks
  rw [shape, List.map_cons] at tasks
  cases line with
  | nil => cases tasks
  | cons n later =>
    obtain ⟨first, others⟩ := List.cons.inj tasks
    obtain ⟨fresh, distinct⟩ := List.nodup_cons.mp lined.distinct
    have apart : ∀ m ∈ later, m ≠ n := fun m member same => fresh (same ▸ member)
    refine ⟨n, later, rfl, first.symm, fun m => ?_, distinct, ?_, fun b member => ?_⟩
    · by_cases same : m = n
      · subst same
        simp [fresh]
      · have inside := lined.inside m
        rw [List.mem_cons] at inside
        rw [Function.update_of_ne same, ← inside]
        simp [same]
    · rw [others]
      exact List.map_congr_left fun m member => (Function.update_of_ne (apart m member) ..).symm
    · exact lined.sizes b (shape ▸ List.mem_cons_of_mem block member)

theorem Lined.keep {stage : Nat → Stage ω} {s : Stage ω} (lined : Lined q (fun m => (stage m).task) line)
    (same : s.task = (stage n).task) : Lined q (fun m => (Function.update stage n s m).task) line := by
  rw [Custody.observe_same stage n s (fun _ => Stage.task) same]
  exact lined

end Lined

section Recorded

variable {begun : List Nat} {ended : List (Nat × UInt64)} {stage : Nat → Stage ω} {n : Nat} {s : Stage ω}

theorem Recorded.move (recorded : Recorded begun ended stage) (sameStarted : s.started = (stage n).started)
    (sameReturned : s.returned = (stage n).returned) (sameResult : ∀ r, s.result = some r → (stage n).result = some r) :
    Recorded begun ended (Function.update stage n s) where
  started m := by
    have seen := congrFun (Custody.observe_same stage n s (fun _ s => s.started) sameStarted) m
    rw [recorded.started, seen]
  once := recorded.once
  returned m := by
    have seen := congrFun (Custody.observe_same stage n s (fun _ s => s.returned) sameReturned) m
    rw [recorded.returned, seen]
  own := recorded.own
  result m r has := by
    by_cases same : m = n
    · subst same
      rw [Function.update_self] at has
      exact recorded.result m r (sameResult r has)
    · rw [Function.update_of_ne same] at has
      exact recorded.result m r has

theorem Recorded.start (recorded : Recorded begun ended stage) (before : (stage n).started = false)
    (after : s.started = true) (sameReturned : s.returned = (stage n).returned) (noResult : s.result = none) :
    Recorded (begun ++ [n]) ended (Function.update stage n s) where
  started m := by
    rw [List.mem_append, List.mem_singleton, recorded.started]
    by_cases same : m = n
    · subst same
      simp [after]
    · simp [same]
  once := by
    have fresh : n ∉ begun := by simp [recorded.started, before]
    refine List.nodup_append.mpr ⟨recorded.once, List.nodup_singleton n, fun m member k last same => fresh ?_⟩
    rwa [← List.mem_singleton.mp last, ← same]
  returned m := by
    have seen := congrFun (Custody.observe_same stage n s (fun _ s => s.returned) sameReturned) m
    rw [recorded.returned, seen]
  own := recorded.own
  result m r has := by
    by_cases same : m = n
    · subst same
      rw [Function.update_self, noResult] at has
      cases has
    · rw [Function.update_of_ne same] at has
      exact recorded.result m r has

theorem Recorded.finish (recorded : Recorded begun ended stage) (sameStarted : s.started = (stage n).started)
    (before : (stage n).returned = false) (after : s.returned = true) {r : UInt64} (isResult : s.result = some r) :
    Recorded begun (ended ++ [(n, r)]) (Function.update stage n s) where
  started m := by
    have seen := congrFun (Custody.observe_same stage n s (fun _ s => s.started) sameStarted) m
    rw [recorded.started, seen]
  once := recorded.once
  returned m := by
    rw [List.map_append, List.mem_append, recorded.returned]
    by_cases same : m = n
    · subst same
      simp [after]
    · simp [same]
  own := by
    have fresh : n ∉ ended.map Prod.fst := by simp [recorded.returned, before]
    rw [List.map_append]
    refine List.nodup_append.mpr ⟨recorded.own, List.nodup_singleton n, fun m member k last same => fresh ?_⟩
    have isLast : k = n := List.mem_singleton.mp last
    rwa [← isLast, ← same]
  result m q has := by
    by_cases same : m = n
    · subst same
      rw [Function.update_self, isResult] at has
      cases has
      exact List.mem_append_right _ (List.mem_singleton_self _)
    · rw [Function.update_of_ne same] at has
      exact List.mem_append_left _ (recorded.result m q has)

end Recorded

section Facts

variable {l : Loop ω} {stage : Nat → Stage ω} {line : List Nat}

theorem absent_of_before {s : Stage ω} {pc : CreatePc} (callAt : s.CallAt pc) (before : pc = .before) :
    s = .absent := by
  subst before
  cases s with
  | absent => rfl
  | created fut crt =>
    obtain ⟨_, wrong⟩ := callAt
    cases wrong
  | _ =>
    obtain ⟨_, wrong | wrong⟩ := callAt <;> cases wrong

theorem created_of_push {s : Stage ω} {pc : CreatePc} {block : Block} {fut : UInt64} (callAt : s.CallAt pc)
    (pushing : pc = .push block fut) :
    ∃ crt padding, s = .created fut crt ∧ block = Task.bytes ⟨true, fut⟩ padding := by
  subst pushing
  cases s with
  | absent => cases callAt
  | created other crt =>
    obtain ⟨padding, same⟩ := callAt
    cases same
    exact ⟨crt, padding, rfl, rfl⟩
  | _ =>
    obtain ⟨_, wrong | wrong⟩ := callAt <;> cases wrong

theorem queued_of_task {s : Stage ω} {task : Task} (queued : s.task = some task) :
    ∃ fut crt, s = .queued fut crt ∧ task = ⟨true, fut⟩ := by
  cases s with
  | queued fut crt =>
    cases queued
    exact ⟨fut, crt, rfl, rfl⟩
  | _ => cases queued

theorem callAt_move {n : Nat} {s : Stage ω} (calls : ∀ m, (stage m).CallAt (l.calls m))
    (same : ∀ pc, (stage n).CallAt pc → s.CallAt pc) (m : Nat) : (Function.update stage n s m).CallAt (l.calls m) := by
  by_cases here : m = n
  · subst here
    rw [Function.update_self]
    exact same _ (calls m)
  · rw [Function.update_of_ne here]
    exact calls m

theorem callAt_goto {n : Nat} {s : Stage ω} {pc : CreatePc} (calls : ∀ m, (stage m).CallAt (l.calls m))
    (there : s.CallAt pc) (m : Nat) : (Function.update stage n s m).CallAt (Function.update l.calls n pc m) := by
  by_cases here : m = n
  · subst here
    rw [Function.update_self, Function.update_self]
    exact there
  · rw [Function.update_of_ne here, Function.update_of_ne here]
    exact calls m

theorem taken_of_took (tracks : l.Tracks stage line) {w : ω} {task : Task} (took : l.workers w = .took task) :
    ∃ n fut crt, stage n = .taken w fut crt ∧ task = ⟨true, fut⟩ := by
  obtain ⟨n, held⟩ := tracks.workers.known w (.took task) (congrArg some took) rfl
  cases found : stage n with
  | taken v fut crt =>
    simp only [found, Stage.held] at held
    cases held
    exact ⟨n, fut, crt, found, rfl⟩
  | _ =>
    simp only [found, Stage.held] at held
    cases held

theorem running_of (tracks : l.Tracks stage line) {w : ω} {fut crt : UInt64} (running : l.workers w = .running fut crt) :
    ∃ n, stage n = .running w fut crt := by
  obtain ⟨n, held⟩ := tracks.workers.known w (.running fut crt) (congrArg some running) rfl
  cases found : stage n with
  | running v other own =>
    simp only [found, Stage.held] at held
    cases held
    exact ⟨n, found⟩
  | _ =>
    simp only [found, Stage.held] at held
    cases held

theorem finished_of_store (tracks : l.Tracks stage line) {w : ω} {fut : UInt64} (stores : l.workers w = .store fut) :
    ∃ n crt r, stage n = .finished w fut crt r := by
  obtain ⟨n, held⟩ := tracks.workers.known w (.store fut) (congrArg some stores) rfl
  cases found : stage n with
  | finished v other crt r =>
    simp only [found, Stage.held] at held
    cases held
    exact ⟨n, crt, r, found⟩
  | _ =>
    simp only [found, Stage.held] at held
    cases held

/-- The task of a call that is not started leads to its coroutine. -/
theorem leads_of_boxes (tracks : l.Tracks stage line) {n : Nat} {fut crt : UInt64}
    (hasFuture : (stage n).future n = some (fut, futureInit n (pointerBytes crt)))
    (hasCoroutine : (stage n).coroutine n = some (crt, ⟨n⟩)) : l.unbox ⟨true, fut⟩ = some (crt, ⟨n⟩) := by
  have future := (tracks.futures.holds n _ _ hasFuture).1
  have coroutine := (tracks.coroutines.holds n _ _ hasCoroutine).1
  have inp : (futureInit n (pointerBytes crt)).inpBlock = pointerBytes crt := rfl
  simp only [unbox, future, Option.bind_some, inp, genericQbout_whole (length_pointerBytes crt),
    pointerOf_pointerBytes, coroutine, Option.map_some]

theorem ready_of_isReady (tracks : l.Tracks stage line) {fut : UInt64} {box : FutureBox}
    (found : l.futures fut = some box) (isReady : box.isReady = true) (pool : box.pool = true) :
    ∃ n crt r, stage n = .ready fut crt r ∧ box = ⟨n, true, pointerBytes crt, loopWorkerOut [] r, true⟩ := by
  obtain ⟨n, hasFuture⟩ := tracks.futures.known fut box found pool
  cases at_ : stage n with
  | ready other crt r =>
    simp only [at_, Stage.future] at hasFuture
    cases hasFuture
    exact ⟨n, crt, r, at_, rfl⟩
  | _ =>
    simp only [at_, Stage.future] at hasFuture
    cases hasFuture
    try cases isReady

end Facts

section Calls

variable {l : Loop ω} {stage : Nat → Stage ω} {line : List Nat}

theorem tracks_create (tracks : l.Tracks stage line) {call : Nat} {crt fut : UInt64} (padding : Fin 7 → UInt8)
    (before : l.calls call = .before) (admitted : l.Admits (.create call crt fut padding)) :
    (l.asyncCreate call crt fut padding).Tracks (Function.update stage call (.created fut crt)) line := by
  obtain ⟨-, notNull, freshCoroutine, freshFuture⟩ := admitted
  have absent := absent_of_before (tracks.calls call) before
  exact {
    futures := by
      rw [Custody.observe_update stage call _ Stage.future]
      refine tracks.futures.take (by rw [absent]; rfl) (fun b found => ?_) rfl
      rw [freshFuture] at found
      cases found
    coroutines := by
      rw [Custody.observe_update stage call _ Stage.coroutine]
      refine tracks.coroutines.take (by rw [absent]; rfl) (fun b found => ?_) trivial
      rw [freshCoroutine] at found
      cases found
    workers := Custody.keep (fun _ => Stage.held) tracks.workers (by rw [absent]; rfl)
    calls := callAt_goto tracks.calls ⟨padding, by simp [notNull]⟩
    lined := tracks.lined.keep (by rw [absent]; rfl)
    recorded := tracks.recorded.move (by rw [absent]; rfl) (by rw [absent]; rfl) (fun r has => by cases has) }

theorem tracks_push (tracks : l.Tracks stage line) {call : Nat} {block : Block} {fut : UInt64}
    (pushing : l.calls call = .push block fut) :
    ∃ crt, ({ l with q := pushBlock l.q block }.callGoto call (.signal fut)).Tracks
      (Function.update stage call (.queued fut crt)) (line ++ [call]) := by
  obtain ⟨crt, padding, created, isBytes⟩ := created_of_push (tracks.calls call) pushing
  subst isBytes
  exact ⟨crt, {
    futures := Custody.keep Stage.future tracks.futures (by rw [created]; rfl)
    coroutines := Custody.keep Stage.coroutine tracks.coroutines (by rw [created]; rfl)
    workers := Custody.keep (fun _ => Stage.held) tracks.workers (by rw [created]; rfl)
    calls := callAt_goto tracks.calls ⟨fut, .inl rfl⟩
    lined := by
      rw [Custody.observe_update stage call _ fun _ => Stage.task]
      exact tracks.lined.push (by rw [created]; rfl) _ padding
    recorded := tracks.recorded.move (by rw [created]; rfl) (by rw [created]; rfl) (fun r has => by cases has) }⟩

theorem tracks_signal (tracks : l.Tracks stage line) {call : Nat} {fut : UInt64}
    (signalling : l.calls call = .signal fut) (hasTasks : Condition ω) :
    ({ l with hasTasks := hasTasks }.callGoto call (.returned fut)).Tracks stage line := by
  refine ⟨tracks.futures, tracks.coroutines, tracks.workers, fun m => ?_, tracks.lined, tracks.recorded⟩
  by_cases here : m = call
  · subst here
    have callAt := tracks.calls m
    rw [signalling] at callAt
    have after : (stage m).CallAt (.returned fut) := by
      cases found : stage m with
      | absent =>
        rw [found] at callAt
        cases callAt
      | created other crt =>
        rw [found] at callAt
        obtain ⟨_, wrong⟩ := callAt
        cases wrong
      | _ => exact ⟨fut, .inr rfl⟩
    simpa [callGoto] using after
  · simpa [callGoto, here] using tracks.calls m

theorem tracks_forget (tracks : l.Tracks stage line) {fut : UInt64} (freed : ∀ b, l.futures fut = some b → ¬b.pool = true)
    {t : Option FutureBox} (dead : ∀ b, t = some b → ¬b.pool = true) : (l.putFuture fut t).Tracks stage line :=
  ⟨tracks.futures.idle (tracks.futures.free freed) dead, tracks.coroutines, tracks.workers, tracks.calls,
    tracks.lined, tracks.recorded⟩

theorem tracks_await (tracks : l.Tracks stage line) {fut : UInt64} {box : FutureBox} (found : l.futures fut = some box)
    (isReady : box.isReady = true) : ∃ stage, (l.putFuture fut (some (futureFree box))).Tracks stage line := by
  -- A future that is freed or was never there belongs to no call.
  have dead : ∀ b, some (futureFree box) = some b → ¬b.pool = true := by
    intro b same
    cases same
    simp [futureFree]
  by_cases pool : box.pool = true
  · obtain ⟨n, crt, r, ready, isBox⟩ := ready_of_isReady tracks found isReady pool
    subst isBox
    exact ⟨Function.update stage n .over, {
      futures := by
        rw [Custody.observe_update stage n _ Stage.future]
        exact tracks.futures.drop (by rw [ready]; rfl) dead
      coroutines := Custody.keep Stage.coroutine tracks.coroutines (by rw [ready]; rfl)
      workers := Custody.keep (fun _ => Stage.held) tracks.workers (by rw [ready]; rfl)
      calls := callAt_move tracks.calls fun pc callAt => by rwa [ready] at callAt
      lined := tracks.lined.keep (by rw [ready]; rfl)
      recorded := tracks.recorded.move (by rw [ready]; rfl) (by rw [ready]; rfl) (fun r has => by cases has) }⟩
  · refine ⟨stage, tracks_forget tracks (fun b there => ?_) dead⟩
    rw [found] at there
    cases there
    exact pool

theorem tracks_wait (tracks : l.Tracks stage line) (hasTasks : Condition ω) :
    { l with hasTasks := hasTasks }.Tracks stage line :=
  ⟨tracks.futures, tracks.coroutines, tracks.workers, tracks.calls, tracks.lined, tracks.recorded⟩

end Calls

section Workers

variable [DecidableEq ω] {l : Loop ω} {stage : Nat → Stage ω} {line : List Nat}

theorem some_goto (w : ω) (pc : WorkerPc) :
    (fun v => some ((l.goto w pc).workers v)) = Function.update (fun v => some (l.workers v)) w (some pc) :=
  Custody.observe_update l.workers w pc fun _ => some

theorem tracks_idle (tracks : l.Tracks stage line) {w : ω} (free : (l.workers w).free = true) {pc : WorkerPc}
    (stillFree : pc.free = true) : (l.goto w pc).Tracks stage line := by
  refine ⟨tracks.futures, tracks.coroutines, ?_, tracks.calls, tracks.lined, tracks.recorded⟩
  rw [some_goto]
  refine tracks.workers.idle (tracks.workers.free fun b found => ?_) fun b found => ?_
  · cases found
    simp [free]
  · cases found
    simp [stillFree]

theorem tracks_take (tracks : l.Tracks stage line) {w : ω} (free : (l.workers w).free = true) :
    ∃ stage line, (l.take w).Tracks stage line := by
  cases shape : l.q.blocks with
  | nil =>
    have waits : l.take w = { l with hasTasks := l.hasTasks.block w }.goto w .waiting := by
      simp only [take, popBlock_nil shape]
    rw [waits]
    have waiting : { l with hasTasks := l.hasTasks.block w }.Tracks stage line := tracks_wait tracks _
    exact ⟨stage, line, tracks_idle waiting free rfl⟩
  | cons block rest =>
    obtain ⟨n, later, -, first, lined⟩ := tracks.lined.pop shape
    obtain ⟨fut, crt, queued, isTask⟩ := queued_of_task first
    have size : block.length = 16 := tracks.lined.sizes block (shape ▸ List.mem_cons_self)
    have takes : l.take w = { l with q := ⟨rest⟩ }.goto w (.took ⟨true, fut⟩) := by
      simp only [take, popBlock_cons shape, genericQbout_whole size, isTask]
    rw [takes]
    exact ⟨Function.update stage n (.taken w fut crt), later, {
      futures := Custody.keep Stage.future tracks.futures (by rw [queued]; rfl)
      coroutines := Custody.keep Stage.coroutine tracks.coroutines (by rw [queued]; rfl)
      workers := by
        rw [some_goto, Custody.observe_update stage n _ fun _ => Stage.held]
        refine tracks.workers.take (by rw [queued]; rfl) (fun b found => ?_) rfl
        cases found
        simp [free]
      calls := callAt_move tracks.calls fun pc callAt => by rwa [queued] at callAt
      lined := by
        rw [Custody.observe_update stage n _ fun _ => Stage.task]
        exact lined
      recorded := tracks.recorded.move (by rw [queued]; rfl) (by rw [queued]; rfl) (fun r has => by cases has) }⟩

theorem tracks_start (tracks : l.Tracks stage line) {w : ω} {task : Task} (took : l.workers w = .took task) :
    ∃ stage, (l.step (.start w)).Tracks stage line := by
  obtain ⟨n, fut, crt, taken, isTask⟩ := taken_of_took tracks took
  subst isTask
  have leads := leads_of_boxes tracks (by rw [taken]; rfl) (by rw [taken]; rfl)
  have starts : l.step (.start w) = { l with started := l.started ++ [n] }.goto w (.running fut crt) := by
    simp only [step, took, leads]
  rw [starts]
  exact ⟨Function.update stage n (.running w fut crt), {
    futures := Custody.keep Stage.future tracks.futures (by rw [taken]; rfl)
    coroutines := Custody.keep Stage.coroutine tracks.coroutines (by rw [taken]; rfl)
    workers := by
      rw [some_goto, Custody.observe_update stage n _ fun _ => Stage.held]
      exact tracks.workers.change (by rw [taken]; rfl) rfl
    calls := callAt_move tracks.calls fun pc callAt => by rwa [taken] at callAt
    lined := tracks.lined.keep (by rw [taken]; rfl)
    recorded := tracks.recorded.start (by rw [taken]; rfl) rfl (by rw [taken]; rfl) rfl }⟩

theorem tracks_finish (tracks : l.Tracks stage line) {w : ω} {fut crt : UInt64} (result : UInt64)
    (running : l.workers w = .running fut crt) : ∃ stage, (l.step (.finish w result)).Tracks stage line := by
  obtain ⟨n, isRunning⟩ := running_of tracks running
  have hasFuture : (stage n).future n = some (fut, futureInit n (pointerBytes crt)) := by rw [isRunning]; rfl
  have hasCoroutine : (stage n).coroutine n = some (crt, ⟨n⟩) := by rw [isRunning]; rfl
  have future := (tracks.futures.holds n _ _ hasFuture).1
  have coroutine := (tracks.coroutines.holds n _ _ hasCoroutine).1
  have finishes : l.step (.finish w result) =
      (({ l with returned := l.returned ++ [(n, result)] }.putFuture fut
        (some ⟨n, true, pointerBytes crt, loopWorkerOut [] result, false⟩)).putCoroutine crt none).goto w (.store fut) := by
    simp only [step, running, future, coroutine]
    rfl
  rw [finishes]
  exact ⟨Function.update stage n (.finished w fut crt result), {
    futures := by
      rw [Custody.observe_update stage n _ Stage.future]
      exact tracks.futures.change hasFuture rfl
    coroutines := by
      rw [Custody.observe_update stage n _ Stage.coroutine]
      exact tracks.coroutines.drop hasCoroutine fun b none => by cases none
    workers := by
      rw [some_goto, Custody.observe_update stage n _ fun _ => Stage.held]
      exact tracks.workers.change (by rw [isRunning]; rfl) rfl
    calls := callAt_move tracks.calls fun pc callAt => by rwa [isRunning] at callAt
    lined := tracks.lined.keep (by rw [isRunning]; rfl)
    recorded := tracks.recorded.finish (by rw [isRunning]; rfl) (by rw [isRunning]; rfl) rfl rfl }⟩

theorem tracks_store (tracks : l.Tracks stage line) {w : ω} {fut : UInt64} (stores : l.workers w = .store fut) :
    ∃ stage, (l.step (.store w)).Tracks stage line := by
  obtain ⟨n, crt, r, finished⟩ := finished_of_store tracks stores
  have hasFuture : (stage n).future n = some (fut, ⟨n, true, pointerBytes crt, loopWorkerOut [] r, false⟩) := by
    rw [finished]; rfl
  have future := (tracks.futures.holds n _ _ hasFuture).1
  have marks : l.step (.store w) =
      (l.putFuture fut (some ⟨n, true, pointerBytes crt, loopWorkerOut [] r, true⟩)).goto w .check := by
    simp only [step, stores, future]
    rfl
  rw [marks]
  exact ⟨Function.update stage n (.ready fut crt r), {
    futures := by
      rw [Custody.observe_update stage n _ Stage.future]
      exact tracks.futures.change hasFuture rfl
    coroutines := Custody.keep Stage.coroutine tracks.coroutines (by rw [finished]; rfl)
    workers := by
      rw [some_goto, Custody.observe_update stage n _ fun _ => Stage.held]
      refine tracks.workers.drop (show (stage n).held = some (w, .store fut) by rw [finished]; rfl) fun b found => ?_
      cases found
      simp [WorkerPc.free]
    calls := callAt_move tracks.calls fun pc callAt => by rwa [finished] at callAt
    lined := tracks.lined.keep (by rw [finished]; rfl)
    recorded := tracks.recorded.move (by rw [finished]; rfl) (by rw [finished]; rfl) fun r has => by
      rw [finished]
      exact has }⟩

end Workers

end Loop

end Dcn
