import Mathlib.Data.Fintype.Basic
import Dcn.Foundation.Runs

/-! Threads that take many locks, in an order.

Every lock has a rank, and a thread takes a lock only if it stands below all
those it has; a recursive lock it may take again. A thread waits for a condition
only while it has no lock. Then the locks never stop the threads: as long as one
of them is at a lock, one of them can go on.
-/

set_option autoImplicit false

namespace Hierarchy

inductive Action (μ : Type) where
  | lock (m : μ)
  | unlock (m : μ)
  | wait
  deriving DecidableEq, Repr

structure Order (μ : Type) where
  rank : μ → Nat
  recursive : μ → Bool

structure State (τ μ : Type) where
  left : τ → List (Action μ)
  held : τ → μ → Nat

variable {τ μ : Type} [DecidableEq τ] [DecidableEq μ] (o : Order μ)

def after (held : μ → Nat) : Action μ → μ → Nat
  | .lock m => Function.update held m (held m + 1)
  | .unlock m => Function.update held m (held m - 1)
  | .wait => held

def step (s : State τ μ) (t : τ) : State τ μ :=
  match s.left t with
  | [] => s
  | action :: rest =>
    ⟨Function.update s.left t rest, Function.update s.held t (after (s.held t) action)⟩

/-- No other thread has the lock, and the thread has it only if it may take it
again. -/
def Available (s : State τ μ) (t : τ) (m : μ) : Prop :=
  (∀ u, 0 < s.held u m → u = t) ∧ (0 < s.held t m → o.recursive m = true)

/-- The thread takes its next step; a wait may end at any time. -/
def Moves (s : State τ μ) (t : τ) : Prop :=
  ∃ action rest, s.left t = action :: rest ∧ ∀ m, action = .lock m → Available o s t m

def Due (s : State τ μ) (t : τ) : Prop := Moves o s t ∧ ∀ rest, s.left t ≠ .wait :: rest

/-- With the locks it has, the thread keeps to the order, gives back only what
it has, waits with nothing and ends with nothing. -/
def Keeps : (μ → Nat) → List (Action μ) → Prop
  | held, [] => ∀ m, held m = 0
  | held, .lock m :: rest =>
    (if held m = 0 then ∀ n, 0 < held n → o.rank m < o.rank n else o.recursive m = true) ∧
      Keeps (after held (.lock m)) rest
  | held, .unlock m :: rest => 0 < held m ∧ Keeps (after held (.unlock m)) rest
  | held, .wait :: rest => (∀ m, held m = 0) ∧ Keeps held rest

structure Sound (s : State τ μ) : Prop where
  keeps : ∀ t, Keeps o (s.held t) (s.left t)
  exclusive : ∀ t u m, 0 < s.held t m → 0 < s.held u m → t = u

def start (programs : τ → List (Action μ)) : State τ μ := ⟨programs, fun _ _ => 0⟩

def Idle (s : State τ μ) (t : τ) : Prop :=
  (s.left t = [] ∨ ∃ rest, s.left t = .wait :: rest) ∧ ∀ m, s.held t m = 0

section Steps

variable {o} {s : State τ μ} {t u : τ} {m : μ} {rest : List (Action μ)}

omit [DecidableEq τ] in
theorem sound_start {programs : τ → List (Action μ)} (keeps : ∀ t, Keeps o (fun _ => 0) (programs t)) :
    Sound o (start programs) :=
  ⟨keeps, fun _ _ _ held _ => absurd held (Nat.lt_irrefl 0)⟩

theorem keeps_after {held : μ → Nat} {action : Action μ} (keeps : Keeps o held (action :: rest)) :
    Keeps o (after held action) rest := by
  cases action with
  | lock m => exact keeps.2
  | unlock m => exact keeps.2
  | wait => exact keeps.2

theorem held_after {held : μ → Nat} {action : Action μ} (has : 0 < after held action m) :
    0 < held m ∨ action = .lock m := by
  cases action with
  | lock n =>
    by_cases same : m = n
    · exact .inr (by rw [same])
    · exact .inl (by rwa [after, Function.update_of_ne same] at has)
  | unlock n =>
    by_cases same : m = n
    · subst same
      rw [after, Function.update_self] at has
      exact .inl (by omega)
    · exact .inl (by rwa [after, Function.update_of_ne same] at has)
  | wait => exact .inl has

theorem sound_step (sound : Sound o s) (moves : Moves o s t) : Sound o (step s t) := by
  obtain ⟨action, rest, next, available⟩ := moves
  have shape : step s t =
      ⟨Function.update s.left t rest, Function.update s.held t (after (s.held t) action)⟩ := by
    simp only [step, next]
  rw [shape]
  -- Nobody else has what the thread has after its step.
  have mine : ∀ u m, 0 < after (s.held t) action m → 0 < s.held u m → u = t := by
    intro u m has other
    rcases held_after has with before | takes
    · exact sound.exclusive u t m other before
    · exact (available m takes).1 u other
  refine ⟨fun u => ?_, fun u v m first second => ?_⟩
  · by_cases same : u = t
    · subst same
      dsimp only
      rw [Function.update_self, Function.update_self]
      exact keeps_after (next ▸ sound.keeps u)
    · dsimp only
      rw [Function.update_of_ne same, Function.update_of_ne same]
      exact sound.keeps u
  · dsimp only at first second
    by_cases left : u = t
    · by_cases right : v = t
      · rw [left, right]
      · subst left
        rw [Function.update_self] at first
        rw [Function.update_of_ne right] at second
        exact (mine v m first second).symm
    · rw [Function.update_of_ne left] at first
      by_cases right : v = t
      · subst right
        rw [Function.update_self] at second
        exact mine u m second first
      · rw [Function.update_of_ne right] at second
        exact sound.exclusive u v m first second

omit [DecidableEq τ] in
/-- Where a thread is at a lock, some thread can go on: the one that has the
lock, or else one that is at a lock further down. -/
theorem exists_due (sound : Sound o s) (locks : s.left t = .lock m :: rest) : ∃ u, Due o s u := by
  induction ranked : o.rank m using Nat.strong_induction_on generalizing t m rest with
  | _ k ih =>
    subst ranked
    have keeps := locks ▸ sound.keeps t
    by_cases free : ∀ u, 0 < s.held u m → u = t
    · refine ⟨t, ⟨.lock m, rest, locks, fun n same => ?_⟩, fun later waits => ?_⟩
      · cases same
        refine ⟨free, fun again => ?_⟩
        have mine : s.held t m ≠ 0 := by omega
        have may := keeps.1
        rwa [if_neg mine] at may
      · rw [locks] at waits
        cases waits
    · push Not at free
      obtain ⟨u, has, other⟩ := free
      have held : s.held u m ≠ 0 := by omega
      have owner := sound.keeps u
      cases next : s.left u with
      | nil =>
        rw [next] at owner
        exact absurd (owner m) held
      | cons action later =>
        rw [next] at owner
        cases action with
        | unlock n =>
          refine ⟨u, ⟨.unlock n, later, next, fun _ same => by cases same⟩, fun _ waits => ?_⟩
          rw [next] at waits
          cases waits
        | wait => exact absurd (owner.1 m) held
        | lock n =>
          by_cases again : s.held u n = 0
          · have below := owner.1
            rw [if_pos again] at below
            exact ih _ (below m has) next rfl
          · -- It takes a lock again that it has.
            have may := owner.1
            rw [if_neg again] at may
            have positive : 0 < s.held u n := by omega
            refine ⟨u, ⟨.lock n, later, next, fun _ same => ?_⟩, fun _ waits => ?_⟩
            · cases same
              exact ⟨fun v others => sound.exclusive v u n others positive, fun _ => may⟩
            · rw [next] at waits
              cases waits

omit [DecidableEq τ] in
theorem idle_of_quiet (sound : Sound o s) (quiet : ∀ u, ¬Due o s u) (t : τ) : Idle s t := by
  have keeps := sound.keeps t
  cases next : s.left t with
  | nil =>
    rw [next] at keeps
    exact ⟨.inl next, keeps⟩
  | cons action rest =>
    rw [next] at keeps
    cases action with
    | lock m =>
      obtain ⟨u, due⟩ := exists_due sound next
      exact absurd due (quiet u)
    | unlock m =>
      refine absurd ⟨⟨.unlock m, rest, next, fun _ same => by cases same⟩, fun _ waits => ?_⟩ (quiet t)
      rw [next] at waits
      cases waits
    | wait => exact ⟨.inr ⟨rest, next⟩, keeps.1⟩

theorem length_left_step [Fintype τ] (moves : Moves o s t) :
    ∑ u, ((step s t).left u).length < ∑ u, (s.left u).length := by
  obtain ⟨action, rest, next, -⟩ := moves
  have dropped : ∑ u, ((step s t).left u).length + 1 ≤ ∑ u, (s.left u).length := by
    refine sum_le_of_drop (Finset.mem_univ t) (fun u other => ?_) ?_
    · simp only [step, next]
      rw [Function.update_of_ne other]
    · simp only [step, next]
      rw [Function.update_self, List.length_cons]
  omega

/-- The threads come to an end: a run has no more steps than they have actions,
and where no thread can go on by itself all of them are done or wait, and no
lock is taken. -/
theorem settles [Fintype τ] (sound : Sound o s) {run : List τ} (along : Runs.Along step (Moves o) s run) :
    run.length ≤ ∑ t, (s.left t).length ∧
      ((∀ u, ¬Due o (Runs.run step s run) u) → ∀ t, Idle (Runs.run step s run) t) := by
  have bound := Runs.length_add_rank_le (fun s : State τ μ => ∑ t, (s.left t).length)
    (fun _ _ => sound_step) (fun _ _ _ => length_left_step) sound along
  have still : Sound o (Runs.run step s run) :=
    (Runs.throughout_of_preserved (fun _ _ => sound_step) sound along).last
  exact ⟨by omega, idle_of_quiet still⟩

end Steps

/-! Programs that keep to the order. -/

def Room (m : μ) (held : μ → Nat) : Prop := ∀ n, 0 < held n → (n = m ∧ o.recursive m = true) ∨ o.rank m < o.rank n

/-- The program can be run by a thread that has only such locks, and gives back
what it takes. -/
def Fits (m : μ) (program : List (Action μ)) : Prop :=
  ∀ held rest, Room o m held → Keeps o held rest → Keeps o held (program ++ rest)

def Under (k : Nat) (program : List (Action μ)) : Prop :=
  ∀ held rest, (∀ n, 0 < held n → k ≤ o.rank n) → Keeps o held rest → Keeps o held (program ++ rest)

def Alone (program : List (Action μ)) : Prop :=
  ∀ rest, Keeps o (fun _ => 0) rest → Keeps o (fun _ => 0) (program ++ rest)

section Programs

variable {o} {m n : μ} {program more body : List (Action μ)}

theorem Fits.nil : Fits o m [] := fun _ _ _ keeps => keeps

theorem Fits.append (first : Fits o m program) (second : Fits o m more) : Fits o m (program ++ more) := by
  intro held rest room keeps
  rw [List.append_assoc]
  exact first held (more ++ rest) room (second held rest room keeps)

theorem Fits.flatMap {α : Type} {f : α → List (Action μ)} (l : List α) (each : ∀ a ∈ l, Fits o m (f a)) :
    Fits o m (l.flatMap f) := by
  induction l with
  | nil => exact .nil
  | cons a l ih =>
    rw [List.flatMap_cons]
    exact (each a List.mem_cons_self).append (ih fun b member => each b (List.mem_cons_of_mem a member))

theorem Under.nil {k : Nat} : Under o k [] := fun _ _ _ keeps => keeps

theorem Under.append {k : Nat} (first : Under o k program) (second : Under o k more) : Under o k (program ++ more) := by
  intro held rest room keeps
  rw [List.append_assoc]
  exact first held (more ++ rest) room (second held rest room keeps)

theorem Under.flatMap {α : Type} {k : Nat} {f : α → List (Action μ)} (l : List α)
    (each : ∀ a ∈ l, Under o k (f a)) : Under o k (l.flatMap f) := by
  induction l with
  | nil => exact .nil
  | cons a l ih =>
    rw [List.flatMap_cons]
    exact (each a List.mem_cons_self).append (ih fun b member => each b (List.mem_cons_of_mem a member))

theorem Fits.under {k : Nat} (fits : Fits o m program) (lower : o.rank m < k) : Under o k program := by
  intro held rest room keeps
  exact fits held rest (fun n has => .inr (lower.trans_le (room n has))) keeps

theorem Under.fits {k : Nat} (under : Under o k program) (upper : k ≤ o.rank m) : Fits o m program := by
  intro held rest room keeps
  refine under held rest (fun n has => ?_) keeps
  rcases room n has with ⟨rfl, -⟩ | above
  · exact upper
  · exact upper.trans above.le

theorem room_lock {held : μ → Nat} (room : Room o m held) (n : μ) (has : 0 < after held (.lock m) n) :
    n = m ∨ o.rank m < o.rank n := by
  by_cases same : n = m
  · exact .inl same
  · rw [after, Function.update_of_ne same] at has
    exact (room n has).imp_left And.left

theorem keeps_section {held : μ → Nat} {rest : List (Action μ)} (room : Room o m held)
    (inside : ∀ rest, Keeps o (after held (.lock m)) rest → Keeps o (after held (.lock m)) (body ++ rest))
    (keeps : Keeps o held rest) : Keeps o held (.lock m :: (body ++ [.unlock m]) ++ rest) := by
  have back : after (after held (.lock m)) (.unlock m) = held := by
    funext n
    by_cases same : n = m
    · subst same
      simp [after]
    · simp [after, Function.update_of_ne same]
  rw [List.cons_append, List.append_assoc]
  refine ⟨?_, inside _ ⟨?_, ?_⟩⟩
  · by_cases none : held m = 0
    · rw [if_pos none]
      intro n has
      rcases room n has with ⟨rfl, -⟩ | above
      · omega
      · exact above
    · rw [if_neg none]
      rcases room m (by omega) with ⟨-, again⟩ | above
      · exact again
      · exact absurd above (Nat.lt_irrefl _)
  · simp [after]
  · rw [back]
    exact keeps

theorem Under.locked {k : Nat} (under : Under o k body) (upper : k ≤ o.rank m) :
    Fits o m (.lock m :: (body ++ [.unlock m])) := by
  intro held rest room keeps
  refine keeps_section room (fun rest inner => under _ rest (fun n has => ?_) inner) keeps
  rcases room_lock room n has with rfl | above
  · exact upper
  · exact upper.trans above.le

theorem Fits.again (fits : Fits o m body) (recursive : o.recursive m = true) :
    Fits o m (.lock m :: (body ++ [.unlock m])) := by
  intro held rest room keeps
  refine keeps_section room (fun rest inner => fits _ rest (fun k has => ?_) inner) keeps
  exact (room_lock room k has).imp_left fun same => ⟨same, recursive⟩

theorem Fits.empty : Fits o m [.lock m, .unlock m] := by
  intro held rest room keeps
  have none : ∀ rest, Keeps o (after held (.lock m)) rest → Keeps o (after held (.lock m)) ([] ++ rest) :=
    fun _ inner => inner
  exact keeps_section room none keeps

theorem Fits.alone (fits : Fits o m program) : Alone o program := by
  intro rest keeps
  exact fits _ rest (fun _ has => absurd has (Nat.lt_irrefl 0)) keeps

theorem Alone.nil : Alone o [] := fun _ keeps => keeps

theorem Alone.append (first : Alone o program) (second : Alone o more) : Alone o (program ++ more) := by
  intro rest keeps
  rw [List.append_assoc]
  exact first (more ++ rest) (second rest keeps)

theorem Alone.flatMap {α : Type} {f : α → List (Action μ)} (l : List α) (each : ∀ a ∈ l, Alone o (f a)) :
    Alone o (l.flatMap f) := by
  induction l with
  | nil => exact .nil
  | cons a l ih =>
    rw [List.flatMap_cons]
    exact (each a List.mem_cons_self).append (ih fun b member => each b (List.mem_cons_of_mem a member))

def condWait (m : μ) : List (Action μ) := [.unlock m, .wait, .lock m]

theorem Fits.waits (fits : Fits o m (.lock m :: (body ++ [.unlock m]))) (k : Nat) :
    Alone o (.lock m :: ((List.replicate k (condWait m)).flatten ++ (body ++ [.unlock m]))) := by
  induction k with
  | zero => exact fits.alone
  | succ k ih =>
    intro rest keeps
    have first : Alone o [.lock m, .unlock m] := Fits.empty.alone
    have waiting : Keeps o (fun _ => 0) (.wait :: (.lock m ::
        ((List.replicate k (condWait m)).flatten ++ (body ++ [.unlock m])) ++ rest)) := ⟨fun _ => rfl, ih rest keeps⟩
    have whole := first _ waiting
    rw [List.replicate_succ, List.flatten_cons]
    simpa only [condWait, List.cons_append, List.append_assoc, List.nil_append] using whole

theorem Alone.wait : Alone o [.wait] := fun _ keeps => ⟨fun _ => rfl, keeps⟩

theorem Alone.keeps (alone : Alone o program) : Keeps o (fun _ => 0) program := by
  have ends : Keeps o (fun _ => 0) ([] : List (Action μ)) := fun _ => rfl
  have whole := alone [] ends
  rwa [List.append_nil] at whole

end Programs

end Hierarchy
