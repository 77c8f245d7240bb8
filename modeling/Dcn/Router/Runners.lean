import Dcn.Sync.Capacity

/-! The runners of a router on the thread pool of its event loop (router.c).

router_run starts a thread for each link. It makes one call after the other, a
ping, gatherings and requests over the other links, and awaits the future of
each before it makes the next. The coroutines of these calls wait for a message,
and messages are handled on the same pool.
-/

set_option autoImplicit false

namespace Dcn

inductive RunnerPc where
  | ready
  | awaits (call : Nat) (fut : UInt64)
  deriving DecidableEq, Repr

/-- The event loop, the runner of each link and, as a history, the runner that
made a call; the other calls are those of run_client for its messages. -/
structure Runners (ω κ : Type) where
  loop : Loop ω
  runners : κ → RunnerPc
  made : Nat → Option κ

/-- A runner calls async_create, run_client does for a message, the pool takes a
step, or a runner returns from its await. -/
inductive RunnersEvent (ω κ : Type) where
  | call (k : κ) (call : Nat) (crt fut : UInt64) (padding : Fin 7 → UInt8)
  | handler (call : Nat) (crt fut : UInt64) (padding : Fin 7 → UInt8)
  | pool (e : LoopEvent ω)
  | awaited (k : κ)

/-- The rest of a call of async_create, and the steps of the workers. -/
def LoopEvent.ofPool {ω : Type} : LoopEvent ω → Bool
  | .push _ | .signal _ _ | .take _ | .wake _ | .start _ | .finish _ _ | .store _ => true
  | .create _ _ _ _ | .await _ | .release _ => false

namespace Runners

variable {ω κ : Type} [DecidableEq ω] [DecidableEq κ]

def init (ω κ : Type) : Runners ω κ := ⟨.init ω, fun _ => .ready, fun _ => none⟩

/-- await returns once the future is ready, or at once where it was freed. -/
def step (s : Runners ω κ) : RunnersEvent ω κ → Runners ω κ
  | .call k call crt fut padding =>
    if s.runners k = .ready ∧ s.loop.calls call = .before then
      ⟨s.loop.step (.create call crt fut padding), Function.update s.runners k (.awaits call fut),
        Function.update s.made call (some k)⟩
    else s
  | .handler call crt fut padding => { s with loop := s.loop.step (.create call crt fut padding) }
  | .pool e => if e.ofPool then { s with loop := s.loop.step e } else s
  | .awaited k =>
    match s.runners k with
    | .ready => s
    | .awaits _ fut =>
      match s.loop.futures fut with
      | none => s
      | some box =>
        if box.isReady ∨ box.pool = false then
          { s with loop := s.loop.step (.await fut), runners := Function.update s.runners k .ready }
        else s

def Admits (s : Runners ω κ) : RunnersEvent ω κ → Prop
  | .call _ call crt fut padding | .handler call crt fut padding => s.loop.Admits (.create call crt fut padding)
  | .pool _ | .awaited _ => True

/-- The coroutines that wait are those of the runners: a ping and a broadcast to
another link for the server's answer, and a gathering, without a timeout, for a
request. -/
def blocking (s : Runners ω κ) : Blocking := ⟨fun call => (s.made call).isSome, fun _ _ => false⟩

/-- Wherever the runners come to, the pool has started every coroutine submitted
to it by the time it comes to rest. -/
def Serves (ω κ : Type) [DecidableEq ω] [DecidableEq κ] : Prop :=
  ∀ events : List (RunnersEvent ω κ), Runs.Along step Admits (init ω κ) events →
    ∀ rest, Loop.Settles (Runs.run step (init ω κ) events).blocking (Runs.run step (init ω κ) events).loop rest →
      ∀ call, (Runs.run step (init ω κ) events).loop.calls call ≠ .before → call ∈ rest.started

/-- Calls of runners take all the workers, and the handler of a message that was
received is not started, whatever else is submitted, as long as none of those
calls returns. -/
structure Stuck (s : Runners ω κ) (n : Nat) : Prop where
  taken : ∀ w, s.loop.Waits s.blocking w
  handler : s.made n = none
  received : s.loop.calls n ≠ .before
  never : ∀ later : List (LoopEvent ω), Runs.Along Loop.step (fun l e => l.Admits e ∧ l.Obeys s.blocking e) s.loop later →
    n ∉ (Runs.run Loop.step s.loop later).started

structure Keeps (l m : Loop ω) : Prop where
  made : ∀ n, l.calls n ≠ .before → m.calls n ≠ .before
  returned : ∀ n, n ∈ l.returned.map Prod.fst → n ∈ m.returned.map Prod.fst
  futures : ∀ f box, l.futures f = some box → ∃ box', m.futures f = some box' ∧ box'.call = box.call ∧
    box'.pool = box.pool

section Loop

variable {l : Loop ω}

omit [DecidableEq ω] in
theorem keeps_rfl (l : Loop ω) : Keeps l l := ⟨fun _ => id, fun _ => id, fun _ box found => ⟨box, found, rfl, rfl⟩⟩

omit [DecidableEq ω] in
theorem keeps_putFuture {m : Loop ω} (made : ∀ n, l.calls n ≠ .before → m.calls n ≠ .before)
    (returned : ∀ n, n ∈ l.returned.map Prod.fst → n ∈ m.returned.map Prod.fst) {f : UInt64} {box' : Option FutureBox}
    (futures : m.futures = Function.update l.futures f box')
    (same : ∀ box, l.futures f = some box → ∃ new, box' = some new ∧ new.call = box.call ∧ new.pool = box.pool) :
    Keeps l m := by
  refine ⟨made, returned, fun other box found => ?_⟩
  rw [futures]
  by_cases here : other = f
  · subst here
    rw [Function.update_self]
    exact same box found
  · rw [Function.update_of_ne here]
    exact ⟨box, found, rfl, rfl⟩

omit [DecidableEq ω] in
theorem made_update {call : Nat} {pc : CreatePc} (past : pc ≠ .before) {n : Nat} (before : l.calls n ≠ .before) :
    Function.update l.calls call pc n ≠ .before := by
  by_cases same : n = call
  · subst same
    rwa [Function.update_self]
  · rwa [Function.update_of_ne same]

theorem keeps_create {call : Nat} {crt fut : UInt64} {padding : Fin 7 → UInt8}
    (admitted : l.Admits (.create call crt fut padding)) : Keeps l (l.step (.create call crt fut padding)) := by
  simp only [Loop.step]
  split
  · refine keeps_putFuture (fun n => ?_) (fun _ => id) rfl fun box found => ?_
    · exact made_update (by simp)
    · rw [admitted.2.2.2] at found
      cases found
  · exact keeps_rfl l

theorem keeps_pool {e : LoopEvent ω} (pool : e.ofPool = true) : Keeps l (l.step e) := by
  cases e with
  | create call crt fut padding => cases pool
  | await fut => cases pool
  | release fut => cases pool
  | push call =>
    simp only [Loop.step]
    split
    · exact ⟨fun n => made_update (by simp), fun _ => id, (keeps_rfl l).futures⟩
    · exact keeps_rfl l
  | signal call choice =>
    simp only [Loop.step]
    split
    · exact ⟨fun n => made_update (by simp), fun _ => id, (keeps_rfl l).futures⟩
    · exact keeps_rfl l
  | take w =>
    simp only [Loop.step, Loop.take]
    repeat' split
    all_goals exact ⟨(keeps_rfl l).made, (keeps_rfl l).returned, (keeps_rfl l).futures⟩
  | wake w => exact ⟨(keeps_rfl l).made, (keeps_rfl l).returned, (keeps_rfl l).futures⟩
  | start w =>
    simp only [Loop.step]
    repeat' split
    all_goals exact ⟨(keeps_rfl l).made, (keeps_rfl l).returned, (keeps_rfl l).futures⟩
  | finish w result =>
    simp only [Loop.step]
    repeat' split
    · next box c at_box at_crt =>
      refine keeps_putFuture (fun _ => id) (fun n member => ?_) rfl fun old found => ?_
      · show n ∈ (l.returned ++ [(c.call, result)]).map Prod.fst
        rw [List.map_append]
        exact List.mem_append_left _ member
      · rw [at_box] at found
        cases found
        exact ⟨_, rfl, rfl, rfl⟩
    all_goals exact keeps_rfl l
  | store w =>
    simp only [Loop.step]
    split
    · refine keeps_putFuture (fun _ => id) (fun _ => id) rfl fun old found => ?_
      rw [found]
      exact ⟨_, rfl, rfl, rfl⟩
    · exact keeps_rfl l

theorem reachable_step (reachable : l.Reachable) {e : LoopEvent ω} (admitted : l.Admits e) : (l.step e).Reachable := by
  obtain ⟨events, along, rfl⟩ := reachable
  refine ⟨events ++ [e], Runs.along_append.mpr ⟨along, admitted, trivial⟩, ?_⟩
  rw [Runs.run_append]
  rfl

omit [DecidableEq ω] in
theorem admits_pool {e : LoopEvent ω} (pool : e.ofPool = true) : l.Admits e := by
  cases e <;> first | exact trivial | cases pool

theorem returned_of_ready (reachable : l.Reachable) {fut : UInt64} {box : FutureBox} (found : l.futures fut = some box)
    (ready : box.isReady = true) (pool : box.pool = true) : box.call ∈ l.returned.map Prod.fst := by
  obtain ⟨events, along, rfl⟩ := reachable
  obtain ⟨⟨stage, line, tracks⟩, roused⟩ := (Loop.tracked_throughout along).last
  exact List.mem_map_of_mem ((Loop.served_of_tracks tracks roused).results fut box found ready pool)

end Loop

/-- The call that a runner awaits is one it made, with the future it was given;
and of the calls it made this is the only one that may not have returned. -/
structure Sequential (s : Runners ω κ) : Prop where
  reachable : s.loop.Reachable
  made : ∀ n k, s.made n = some k → s.loop.calls n ≠ .before ∧
    (n ∈ s.loop.returned.map Prod.fst ∨ ∃ fut, s.runners k = .awaits n fut)
  awaits : ∀ k n fut, s.runners k = .awaits n fut → s.made n = some k ∧
    ∃ box, s.loop.futures fut = some box ∧ box.call = n ∧ box.pool = true

section Steps

variable {s : Runners ω κ}

omit [DecidableEq κ] in
theorem Sequential.withLoop (sequential : s.Sequential) {l : Loop ω} (reachable : l.Reachable)
    (keeps : Keeps s.loop l) : Sequential { s with loop := l } := by
  refine ⟨reachable, fun n k made => ?_, fun k n fut waits => ?_⟩
  · obtain ⟨past, done⟩ := sequential.made n k made
    exact ⟨keeps.made n past, done.imp_left (keeps.returned n)⟩
  · obtain ⟨made, box, found, call, pool⟩ := sequential.awaits k n fut waits
    obtain ⟨new, there, sameCall, samePool⟩ := keeps.futures fut box found
    exact ⟨made, new, there, sameCall.trans call, samePool.trans pool⟩

theorem sequential_call (sequential : s.Sequential) {k : κ} {call : Nat} {crt fut : UInt64} {padding : Fin 7 → UInt8}
    (admitted : s.loop.Admits (.create call crt fut padding)) (ready : s.runners k = .ready)
    (before : s.loop.calls call = .before) :
    Sequential ⟨s.loop.step (.create call crt fut padding), Function.update s.runners k (.awaits call fut),
      Function.update s.made call (some k)⟩ := by
  have keeps := keeps_create admitted
  have fresh : s.made call = none := by
    cases owner : s.made call with
    | none => rfl
    | some other => exact absurd before (sequential.made call other owner).1
  refine ⟨reachable_step sequential.reachable admitted, fun n j made => ?_, fun j n other waits => ?_⟩
  · dsimp only at made ⊢
    by_cases same : n = call
    · subst same
      rw [Function.update_self, Option.some.injEq] at made
      subst made
      refine ⟨?_, .inr ⟨fut, Function.update_self ..⟩⟩
      simp [Loop.step, before, Loop.asyncCreate, Loop.callGoto]
    · rw [Function.update_of_ne same] at made
      obtain ⟨past, done⟩ := sequential.made n j made
      refine ⟨keeps.made n past, ?_⟩
      rcases done with returned | ⟨other, waits⟩
      · exact .inl (keeps.returned n returned)
      · -- The runner that calls has nothing left to await.
        have apart : j ≠ k := by
          rintro rfl
          rw [ready] at waits
          cases waits
        exact .inr ⟨other, by rw [Function.update_of_ne apart, waits]⟩
  · dsimp only at waits ⊢
    by_cases same : j = k
    · subst same
      rw [Function.update_self] at waits
      cases waits
      refine ⟨Function.update_self .., futureInit call (pointerBytes crt), ?_, rfl, rfl⟩
      simp [Loop.step, before, Loop.asyncCreate, Loop.callGoto, Loop.putFuture]
    · rw [Function.update_of_ne same] at waits
      obtain ⟨made, box, found, isCall, pool⟩ := sequential.awaits j n other waits
      obtain ⟨new, there, sameCall, samePool⟩ := keeps.futures other box found
      have apart : n ≠ call := by
        rintro rfl
        rw [fresh] at made
        cases made
      exact ⟨by rw [Function.update_of_ne apart, made], new, there, sameCall.trans isCall, samePool.trans pool⟩

theorem sequential_awaited (sequential : s.Sequential) {k : κ} {n : Nat} {fut : UInt64} {box : FutureBox}
    (waits : s.runners k = .awaits n fut) (found : s.loop.futures fut = some box)
    (returns : box.isReady = true ∨ box.pool = false) :
    Sequential { s with loop := s.loop.step (.await fut), runners := Function.update s.runners k .ready } := by
  obtain ⟨made, own, there, isCall, pool⟩ := sequential.awaits k n fut waits
  rw [found, Option.some.injEq] at there
  subst there
  have ready : box.isReady = true := returns.resolve_right (by simp [pool])
  have done : n ∈ s.loop.returned.map Prod.fst := isCall ▸ returned_of_ready sequential.reachable found ready pool
  have after : s.loop.step (.await fut) = s.loop.putFuture fut (some (futureFree box)) := by
    simp only [Loop.step, found, ready]
    rfl
  have free : s.loop.Admits (.await fut) := trivial
  refine ⟨reachable_step sequential.reachable free, fun m j owner => ?_, fun j m other waiting => ?_⟩
  · dsimp only at owner ⊢
    rw [after]
    obtain ⟨past, left⟩ := sequential.made m j owner
    refine ⟨past, ?_⟩
    rcases left with returned | ⟨other, waiting⟩
    · exact .inl returned
    · by_cases same : j = k
      · subst same
        rw [waits] at waiting
        cases waiting
        exact .inl done
      · exact .inr ⟨other, by rw [Function.update_of_ne same, waiting]⟩
  · dsimp only at waiting ⊢
    by_cases same : j = k
    · subst same
      rw [Function.update_self] at waiting
      cases waiting
    · rw [Function.update_of_ne same] at waiting
      obtain ⟨owner, theirs, there, theirCall, theirPool⟩ := sequential.awaits j m other waiting
      -- Two runners do not await one future.
      have apart : other ≠ fut := by
        rintro rfl
        rw [found, Option.some.injEq] at there
        subst there
        rw [← isCall, theirCall, owner, Option.some.injEq] at made
        exact same made
      refine ⟨owner, theirs, ?_, theirCall, theirPool⟩
      rw [after]
      exact (Function.update_of_ne apart ..).trans there

theorem sequential_step (s : Runners ω κ) (e : RunnersEvent ω κ) (sequential : s.Sequential) (admitted : s.Admits e) :
    (s.step e).Sequential := by
  cases e with
  | call k call crt fut padding =>
    simp only [step]
    split
    · next free => exact sequential_call sequential admitted free.1 free.2
    · exact sequential
  | handler call crt fut padding =>
    exact sequential.withLoop (reachable_step sequential.reachable admitted) (keeps_create admitted)
  | pool e =>
    simp only [step]
    split
    · next pool => exact sequential.withLoop (reachable_step sequential.reachable (admits_pool pool)) (keeps_pool pool)
    · exact sequential
  | awaited k =>
    simp only [step]
    split
    · exact sequential
    · next n fut waits =>
      split
      · exact sequential
      · next box found =>
        split
        · next returns => exact sequential_awaited sequential waits found returns
        · exact sequential

omit [DecidableEq κ] in
theorem sequential_init : (init ω κ).Sequential where
  reachable := ⟨[], trivial, rfl⟩
  made n k made := by cases made
  awaits k n fut waits := by cases waits

theorem sequential_run {events : List (RunnersEvent ω κ)} (admitted : Runs.Along step Admits (init ω κ) events) :
    (Runs.run step (init ω κ) events).Sequential :=
  (Runs.throughout_of_preserved sequential_step sequential_init admitted).last

end Steps

section Few

variable [Fintype ω] [Fintype κ] {s : Runners ω κ}

omit [DecidableEq κ] [Fintype ω] in
theorem outstanding_le (sequential : s.Sequential) : (s.loop.outstanding s.blocking).encard ≤ Fintype.card κ := by
  let awaited : κ → Nat := fun k => match s.runners k with
    | .ready => 0
    | .awaits n _ => n
  have covered : s.loop.outstanding s.blocking ⊆ awaited '' Set.univ := by
    rintro n ⟨-, waits, pending⟩
    obtain ⟨k, owner⟩ := Option.isSome_iff_exists.mp waits
    obtain ⟨-, returned | ⟨fut, here⟩⟩ := sequential.made n k owner
    · exact absurd returned pending
    · exact ⟨k, Set.mem_univ k, by simp only [awaited, here]⟩
  calc (s.loop.outstanding s.blocking).encard ≤ (awaited '' Set.univ).encard := Set.encard_le_encard covered
    _ ≤ (Set.univ : Set κ).encard := Set.encard_image_le awaited Set.univ
    _ = Fintype.card κ := by rw [Set.encard_univ, ENat.card_eq_coe_fintype_card]

theorem serves_of_few (few : Fintype.card κ < Fintype.card ω) : Serves ω κ := by
  intro events admitted rest settles call past
  have sequential := sequential_run admitted
  have fewer : ((Runs.run step (init ω κ) events).loop.outstanding
      (Runs.run step (init ω κ) events).blocking).encard < Fintype.card ω :=
    (outstanding_le sequential).trans_lt (by exact_mod_cast few)
  exact sequential.reachable.serves fewer settles past

end Few

section Many

def crtAt (n : Nat) : UInt64 := UInt64.ofNat (2 * n + 1)

def futAt (n : Nat) : UInt64 := UInt64.ofNat (2 * n + 2)

def callEach (ω : Type) : Nat → List κ → List (RunnersEvent ω κ)
  | _, [] => []
  | n, k :: rest => .call k n (crtAt n) (futAt n) (fun _ => 0) :: callEach ω (n + 1) rest

def FreshFrom (n : Nat) (l : Loop ω) : Prop :=
  ∀ m, n ≤ m → m < 2 ^ 62 → l.calls m = .before ∧ l.coroutines (crtAt m) = none ∧ l.futures (futAt m) = none

theorem addresses_ne {n m : Nat} (n_lt : n < 2 ^ 62) (m_lt : m < 2 ^ 62) (differ : m ≠ n) :
    crtAt m ≠ crtAt n ∧ futAt m ≠ futAt n := by
  constructor
  · intro same
    have numbers := congrArg UInt64.toNat same
    simp only [crtAt, UInt64.toNat_ofNat'] at numbers
    omega
  · intro same
    have numbers := congrArg UInt64.toNat same
    simp only [futAt, UInt64.toNat_ofNat'] at numbers
    omega

theorem addresses_pos {n : Nat} (n_lt : n < 2 ^ 62) : crtAt n ≠ 0 ∧ futAt n ≠ 0 := by
  constructor
  · intro zero
    have numbers := congrArg UInt64.toNat zero
    simp only [crtAt, UInt64.toNat_ofNat', UInt64.toNat_zero] at numbers
    omega
  · intro zero
    have numbers := congrArg UInt64.toNat zero
    simp only [futAt, UInt64.toNat_ofNat', UInt64.toNat_zero] at numbers
    omega

structure Called (n : Nat) (s : Runners ω κ) : Prop where
  made : ∀ m, m < n → (s.made m).isSome ∧ s.loop.calls m ≠ .before
  fresh : FreshFrom n s.loop
  returned : s.loop.returned = []

theorem called_call {n : Nat} {s : Runners ω κ} (called : s.Called n) (n_lt : n < 2 ^ 62) {k : κ}
    (ready : s.runners k = .ready) :
    s.Admits (.call k n (crtAt n) (futAt n) fun _ => 0) ∧
      (s.step (.call k n (crtAt n) (futAt n) fun _ => 0)).Called (n + 1) ∧
      ∀ j, j ≠ k → (s.step (.call k n (crtAt n) (futAt n) fun _ => 0)).runners j = s.runners j := by
  obtain ⟨before, noCrt, noFut⟩ := called.fresh n le_rfl n_lt
  have result : s.step (.call k n (crtAt n) (futAt n) fun _ => 0) =
      ⟨s.loop.asyncCreate n (crtAt n) (futAt n) fun _ => 0, Function.update s.runners k (.awaits n (futAt n)),
        Function.update s.made n (some k)⟩ := by
    rw [step, if_pos ⟨ready, before⟩, Loop.step, if_pos before]
  rw [result]
  refine ⟨⟨(addresses_pos n_lt).1, (addresses_pos n_lt).2, noCrt, noFut⟩, ⟨fun m lt => ?_, fun m from_n m_lt => ?_,
    called.returned⟩, fun j other => Function.update_of_ne other ..⟩
  · by_cases same : m = n
    · subst same
      exact ⟨by simp, by simp [Loop.asyncCreate, Loop.callGoto]⟩
    · obtain ⟨made, past⟩ := called.made m (by omega)
      refine ⟨?_, made_update (by simp) past⟩
      show (Function.update s.made n (some k) m).isSome = true
      rwa [Function.update_of_ne same]
  · have other : m ≠ n := by omega
    obtain ⟨crtOther, futOther⟩ := addresses_ne n_lt m_lt other
    obtain ⟨unmade, freeCrt, freeFut⟩ := called.fresh m (by omega) m_lt
    refine ⟨?_, ?_, ?_⟩
    · exact (Function.update_of_ne other ..).trans unmade
    · exact (Function.update_of_ne crtOther ..).trans freeCrt
    · exact (Function.update_of_ne futOther ..).trans freeFut

theorem called_callEach {n : Nat} {s : Runners ω κ} (called : s.Called n) {runners : List κ} (distinct : runners.Nodup)
    (ready : ∀ k ∈ runners, s.runners k = .ready) (few : n + runners.length ≤ 2 ^ 62) :
    Runs.Along step Admits s (callEach ω n runners) ∧
      (Runs.run step s (callEach ω n runners)).Called (n + runners.length) := by
  induction runners generalizing n s with
  | nil => exact ⟨trivial, called⟩
  | cons k rest ih =>
    obtain ⟨fresh, distinct⟩ := List.nodup_cons.mp distinct
    rw [List.length_cons] at few
    obtain ⟨admitted, next, others⟩ := called_call called (by omega) (ready k List.mem_cons_self)
    have still : ∀ j ∈ rest, (s.step (.call k n (crtAt n) (futAt n) fun _ => 0)).runners j = .ready := by
      intro j member
      have apart : j ≠ k := fun same => fresh (same ▸ member)
      rw [others j apart]
      exact ready j (List.mem_cons_of_mem k member)
    obtain ⟨along, last⟩ := ih next distinct still (by omega)
    refine ⟨⟨admitted, along⟩, ?_⟩
    rw [callEach, Runs.run_cons, List.length_cons]
    have total : n + (rest.length + 1) = n + 1 + rest.length := by omega
    rw [total]
    exact last

omit [DecidableEq ω] [DecidableEq κ] in
theorem called_init : (init ω κ).Called 0 where
  made m lt := absurd lt (Nat.not_lt_zero m)
  fresh _ _ _ := ⟨rfl, rfl, rfl⟩
  returned := rfl

omit [DecidableEq ω] [DecidableEq κ] in
theorem le_outstanding {n : Nat} {s : Runners ω κ} (called : s.Called n) :
    n ≤ (s.loop.outstanding s.blocking).encard := by
  have covers : (Finset.range n : Set Nat) ⊆ s.loop.outstanding s.blocking := by
    intro m member
    obtain ⟨made, past⟩ := called.made m (by simpa using member)
    exact ⟨past, made, by simp [called.returned]⟩
  have card := Set.encard_le_encard covers
  rwa [Set.encard_coe_eq_coe_finsetCard, Finset.card_range] at card

section Pool

variable {l : Loop ω} {b : Blocking} {e : LoopEvent ω}

omit [DecidableEq ω] in
theorem ofPool_of_due (due : l.Due b e) : e.ofPool = true := by
  cases e <;> first | rfl | exact due.1.elim

omit [DecidableEq ω] [DecidableEq κ] in
theorem absent_update {β : Type} {boxes : UInt64 → Option β} {at_ other : UInt64} {box : Option β}
    (none : boxes at_ = none) (absent : boxes other = .none → box = .none) :
    Function.update boxes other box at_ = .none := by
  by_cases same : at_ = other
  · subst same
    rw [Function.update_self]
    exact absent none
  · rwa [Function.update_of_ne same]

omit [DecidableEq ω] in
theorem obeys_of_due (due : l.Due b e) : l.Obeys b e := by
  cases e with
  | finish w result =>
    intro fut crt c running there waits
    exact absurd ⟨fut, crt, c, running, there, waits⟩ (due.2 w result rfl)
  | _ => exact trivial

theorem made_of_started (reachable : l.Reachable) {n : Nat} (started : n ∈ l.started) : l.calls n ≠ .before := by
  obtain ⟨made, sound⟩ := reachable.sound
  obtain ⟨stage, line, tracks⟩ := sound.tracks
  obtain ⟨other, past⟩ := Loop.submitted_of_callAt (tracks.calls n) ((tracks.recorded.started n).mp started)
  intro before
  rcases past with past | past <;> rw [before] at past <;> cases past

theorem absent_pool (pool : e.ofPool = true) :
    (∀ crt, l.coroutines crt = none → (l.step e).coroutines crt = none) ∧
      ∀ fut, l.futures fut = none → (l.step e).futures fut = none := by
  cases e with
  | create call crt fut padding => cases pool
  | await fut => cases pool
  | release fut => cases pool
  | push call =>
    simp only [Loop.step]
    split <;> exact ⟨fun _ => id, fun _ => id⟩
  | signal call choice =>
    simp only [Loop.step]
    split <;> exact ⟨fun _ => id, fun _ => id⟩
  | take w =>
    simp only [Loop.step, Loop.take]
    repeat' split
    all_goals exact ⟨fun _ => id, fun _ => id⟩
  | wake w => exact ⟨fun _ => id, fun _ => id⟩
  | start w =>
    simp only [Loop.step]
    repeat' split
    all_goals exact ⟨fun _ => id, fun _ => id⟩
  | finish w result =>
    simp only [Loop.step]
    repeat' split
    · next box c at_box at_crt =>
      refine ⟨fun _ absent => absent_update absent fun _ => rfl, fun _ absent => ?_⟩
      refine absent_update absent fun free => ?_
      rw [at_box] at free
      cases free
    all_goals exact ⟨fun _ => id, fun _ => id⟩
  | store w =>
    simp only [Loop.step]
    split
    · refine ⟨fun _ => id, fun _ absent => absent_update absent fun free => ?_⟩
      rw [free]
      rfl
    · exact ⟨fun _ => id, fun _ => id⟩

theorem freshFrom_due {n : Nat} (reachable : l.Reachable) (fresh : FreshFrom n l) (due : l.Due b e) :
    FreshFrom n (l.step e) := by
  obtain ⟨made, sound⟩ := reachable.sound
  obtain ⟨stage, line, tracks⟩ := sound.tracks
  obtain ⟨coroutines, futures⟩ := absent_pool (ofPool_of_due due)
  intro m from_n m_lt
  obtain ⟨before, noCrt, noFut⟩ := fresh m from_n m_lt
  exact ⟨(Loop.before_due tracks due m).mpr before, coroutines _ noCrt, futures _ noFut⟩

theorem freshFrom_settles {n : Nat} {rest : Loop ω} (reachable : l.Reachable) (fresh : FreshFrom n l)
    (settles : l.Settles b rest) : rest.Reachable ∧ FreshFrom n rest := by
  obtain ⟨steps, along, rfl, -⟩ := settles
  have throughout : Runs.Throughout Loop.step (fun m : Loop ω => m.Reachable ∧ FreshFrom n m) l steps := by
    refine Runs.throughout_of_preserved (fun m e ⟨reachable, fresh⟩ due => ?_) ⟨reachable, fresh⟩ along
    exact ⟨reachable_step reachable (admits_pool (ofPool_of_due due)), freshFrom_due reachable fresh due⟩
  exact throughout.last

end Pool

theorem run_pool {s : Runners ω κ} {b : Blocking} {steps : List (LoopEvent ω)}
    (due : Runs.Along Loop.step (Loop.Due b) s.loop steps) :
    Runs.Along step Admits s (steps.map .pool) ∧
      Runs.run step s (steps.map .pool) = { s with loop := Runs.run Loop.step s.loop steps } := by
  induction steps generalizing s with
  | nil => exact ⟨trivial, rfl⟩
  | cons e rest ih =>
    obtain ⟨first, later⟩ := due
    have moves : s.step (.pool e) = { s with loop := s.loop.step e } := by
      rw [step, if_pos (ofPool_of_due first)]
    have onward : Runs.Along Loop.step (Loop.Due b) (s.step (.pool e)).loop rest := by rwa [moves]
    obtain ⟨along, last⟩ := ih onward
    refine ⟨⟨trivial, along⟩, ?_⟩
    rw [List.map_cons, Runs.run_cons, last, moves]
    rfl

variable [Fintype ω]

omit [DecidableEq κ] in
theorem never_started {s : Runners ω κ} {n : Nat} (sequential : s.Sequential) (called : s.Called n)
    (many : Fintype.card ω ≤ n) (n_lt : n < 2 ^ 62) {rest : Loop ω} (settles : s.loop.Settles s.blocking rest) :
    Stuck { s with loop := rest.step (.create n (crtAt n) (futAt n) fun _ => 0) } n := by
  have most : Fintype.card ω ≤ (s.loop.outstanding s.blocking).encard :=
    (Nat.cast_le.mpr many).trans (le_outstanding called)
  have crowded := sequential.reachable.crowded most (fun _ _ _ _ => rfl) settles
  obtain ⟨reachable, fresh⟩ := freshFrom_settles sequential.reachable called.fresh settles
  obtain ⟨before, noCrt, noFut⟩ := fresh n le_rfl n_lt
  have admitted : rest.Admits (.create n (crtAt n) (futAt n) fun _ => 0) :=
    ⟨(addresses_pos n_lt).1, (addresses_pos n_lt).2, noCrt, noFut⟩
  have still := (Loop.crowded_step crowded admitted trivial).2.1
  have onward := crowded.step admitted trivial
  refine ⟨fun w => ?_, ?_, ?_, fun later obeying started => ?_⟩
  · obtain ⟨m, fut, crt, running, there, waits, -⟩ := onward w
    exact ⟨fut, crt, ⟨m⟩, running, there, waits⟩
  · cases owner : s.made n with
    | none => rfl
    | some k => exact absurd (called.fresh n le_rfl n_lt).1 (sequential.made n k owner).1
  · simp [Loop.step, before, Loop.asyncCreate, Loop.callGoto]
  · rw [(Loop.crowded_run onward obeying).1, still] at started
    exact made_of_started reachable started before

/-- Runners of all workers' number make their pings, the pool comes to rest, and
a message is received. -/
theorem exists_stuck {runners : List κ} (distinct : runners.Nodup) (many : Fintype.card ω ≤ runners.length)
    (small : runners.length < 2 ^ 62) :
    ∃ events, Runs.Along step Admits (init ω κ) events ∧ ∃ n, (Runs.run step (init ω κ) events).Stuck n := by
  have initially : (init ω κ).Called 0 := called_init
  obtain ⟨calling, called⟩ := called_callEach initially distinct (fun _ _ => rfl) (by omega)
  have sequential := sequential_run calling
  rw [Nat.zero_add] at called
  obtain ⟨s, isRun⟩ : ∃ s, s = Runs.run step (init ω κ) (callEach ω 0 runners) := ⟨_, rfl⟩
  rw [← isRun] at called sequential
  obtain ⟨-, rest, settles⟩ := sequential.reachable.settles s.blocking
  have stuck := never_started sequential called many small settles
  obtain ⟨reachable, fresh⟩ := freshFrom_settles sequential.reachable called.fresh settles
  obtain ⟨before, noCrt, noFut⟩ := fresh runners.length le_rfl small
  have admitted : rest.Admits (.create runners.length (crtAt runners.length) (futAt runners.length) fun _ => 0) :=
    ⟨(addresses_pos small).1, (addresses_pos small).2, noCrt, noFut⟩
  obtain ⟨steps, due, isRest, -⟩ := settles
  obtain ⟨along, settled⟩ := run_pool due
  rw [isRest] at settled
  have result : Runs.run step (init ω κ) (callEach ω 0 runners ++ (steps.map .pool ++
      [.handler runners.length (crtAt runners.length) (futAt runners.length) fun _ => 0])) =
      { s with loop := rest.step (.create runners.length (crtAt runners.length) (futAt runners.length)
        fun _ => 0) } := by
    rw [Runs.run_append, ← isRun, Runs.run_append, settled]
    rfl
  have whole : Runs.Along step Admits (init ω κ) (callEach ω 0 runners ++ (steps.map .pool ++
      [.handler runners.length (crtAt runners.length) (futAt runners.length) fun _ => 0])) := by
    apply Runs.along_append.mpr
    rw [← isRun]
    apply And.intro calling
    apply Runs.along_append.mpr
    rw [settled]
    exact ⟨along, admitted, trivial⟩
  exact ⟨_, whole, runners.length, by rwa [result]⟩

theorem exists_stuck_of_many [Fintype κ] (small : Fintype.card ω < 2 ^ 62) (many : Fintype.card ω ≤ Fintype.card κ) :
    ∃ events, Runs.Along step Admits (init ω κ) events ∧ ∃ n, (Runs.run step (init ω κ) events).Stuck n := by
  obtain ⟨runners, -, card⟩ := Finset.exists_subset_card_eq (many : Fintype.card ω ≤ (Finset.univ : Finset κ).card)
  have length : runners.toList.length = Fintype.card ω := by rw [Finset.length_toList, card]
  exact exists_stuck runners.nodup_toList length.ge (by omega)

theorem few_of_serves [Fintype κ] (small : Fintype.card ω < 2 ^ 62) (serves : Serves ω κ) :
    Fintype.card κ < Fintype.card ω := by
  by_contra many
  obtain ⟨events, admitted, n, stuck⟩ := @exists_stuck_of_many ω κ _ _ _ _ small (not_lt.mp many)
  obtain ⟨-, last, settles⟩ := (sequential_run admitted).reachable.settles (Runs.run step (init ω κ) events).blocking
  have started := serves events admitted last settles n stuck.received
  obtain ⟨steps, due, rfl, -⟩ := settles
  exact stuck.never steps (due.mono fun l e due => ⟨admits_pool (ofPool_of_due due), obeys_of_due due⟩) started

end Many

/-- Every message that is received is handled, whatever the runners wait for,
exactly when there are fewer links than workers; with as many links as workers a
handler can be kept waiting for ever. -/
theorem serves_iff_few [Fintype ω] [Fintype κ] (small : Fintype.card ω < 2 ^ 62) :
    (Serves ω κ ↔ Fintype.card κ < Fintype.card ω) ∧ (Fintype.card ω ≤ Fintype.card κ →
      ∃ events, Runs.Along step Admits (init ω κ) events ∧ ∃ n, (Runs.run step (init ω κ) events).Stuck n) :=
  ⟨⟨few_of_serves small, serves_of_few⟩, exists_stuck_of_many small⟩

/-- The router has four workers and two links. -/
theorem serves_iff_few_router : Serves (Fin 4) Bool :=
  (serves_iff_few (by decide)).1.mpr (by decide)

end Runners

end Dcn
