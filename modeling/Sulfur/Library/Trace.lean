import Mathlib.Tactic

/-!
# Traces of variable accesses

An execution of a structured program is seen as the list of its accesses to
variables.  A declaration takes the value of its variable away, a write gives it
one, and a read needs one.  The behaviours below are closed under stopping at
any point, so that a statement about all traces also covers the executions that
never end.
-/

namespace Sulfur.Trace

/-- An access to a variable. -/
inductive Event (Var : Type*)
  | declare (var : Var)
  | read (var : Var)
  | write (var : Var)
  deriving DecidableEq, Repr

variable {Var : Type*}

/-- The variables with a value after an access. -/
def Event.after (assigned : Set Var) : Event Var → Set Var
  | .declare var => assigned \ {var}
  | .read _ => assigned
  | .write var => insert var assigned

/-- A read needs a value. -/
def Event.Safe (assigned : Set Var) : Event Var → Prop
  | .declare _ => True
  | .read var => var ∈ assigned
  | .write _ => True

/-- The variables with a value after a trace. -/
def after : Set Var → List (Event Var) → Set Var
  | assigned, [] => assigned
  | assigned, event :: rest => after (event.after assigned) rest

/-- Every read of a trace finds a value. -/
def Safe : Set Var → List (Event Var) → Prop
  | _, [] => True
  | assigned, event :: rest => event.Safe assigned ∧ Safe (event.after assigned) rest

@[simp]
theorem after_append (assigned : Set Var) (first second : List (Event Var)) :
    after assigned (first ++ second) = after (after assigned first) second := by
  induction first generalizing assigned with
  | nil => rfl
  | cons event rest inductionHypothesis =>
      simp only [List.cons_append, after, inductionHypothesis]

@[simp]
theorem safe_append (assigned : Set Var) (first second : List (Event Var)) :
    Safe assigned (first ++ second) ↔
      Safe assigned first ∧ Safe (after assigned first) second := by
  induction first generalizing assigned with
  | nil => simp [Safe, after]
  | cons event rest inductionHypothesis =>
      simp only [List.cons_append, Safe, after, inductionHypothesis, and_assoc]

/-- A safe trace is safe up to every point. -/
theorem Safe.before {assigned : Set Var} {trace start : List (Event Var)}
    (safe : Safe assigned trace) (stops : start <+: trace) : Safe assigned start := by
  obtain ⟨rest, rfl⟩ := stops
  exact ((safe_append assigned start rest).mp safe).1

/-- Only a declaration takes a value away. -/
theorem mem_after {assigned : Set Var} {trace : List (Event Var)} {var : Var}
    (has : var ∈ assigned) (kept : .declare var ∉ trace) : var ∈ after assigned trace := by
  induction trace generalizing assigned with
  | nil => exact has
  | cons event rest inductionHypothesis =>
      simp only [List.mem_cons, not_or] at kept
      refine inductionHypothesis ?_ kept.2
      cases event with
      | declare other =>
          refine ⟨has, ?_⟩
          rintro rfl
          exact kept.1 rfl
      | read other => exact has
      | write other => exact Or.inr has

/-- A trace without declarations is safe when the variables that it reads have
values before it. -/
theorem safe_of_reads {assigned : Set Var} {trace : List (Event Var)}
    (declares : ∀ var, .declare var ∉ trace)
    (reads : ∀ var, .read var ∈ trace → var ∈ assigned) : Safe assigned trace := by
  induction trace generalizing assigned with
  | nil => trivial
  | cons event rest inductionHypothesis =>
      have restDeclares : ∀ var, .declare var ∉ rest :=
        fun var inRest => declares var (List.mem_cons_of_mem _ inRest)
      have restReads : ∀ var, .read var ∈ rest → var ∈ assigned :=
        fun var inRest => reads var (List.mem_cons_of_mem _ inRest)
      cases event with
      | declare var => exact absurd (List.mem_cons_self ..) (declares var)
      | read var =>
          exact ⟨reads var (List.mem_cons_self ..),
            inductionHypothesis restDeclares restReads⟩
      | write var =>
          exact ⟨trivial, inductionHypothesis restDeclares
            fun other inRest => Or.inr (restReads other inRest)⟩

/-- A variable that got its value on the way was written, and not declared
since. -/
theorem exists_write_of_mem_after {assigned : Set Var} {trace : List (Event Var)}
    {var : Var} (has : var ∈ after assigned trace) (new : var ∉ assigned) :
    ∃ earlier later, trace = earlier ++ .write var :: later ∧
      .declare var ∉ later := by
  induction trace using List.reverseRecOn with
  | nil => exact absurd has new
  | append_singleton start event inductionHypothesis =>
      rw [after_append] at has
      -- the last access writes the variable, or leaves it as it is
      have older (old : var ∈ after assigned start) (other : event ≠ .declare var) :
          ∃ earlier later, start ++ [event] = earlier ++ .write var :: later ∧
            .declare var ∉ later := by
        obtain ⟨earlier, later, rfl, kept⟩ := inductionHypothesis old
        refine ⟨earlier, later ++ [event], by simp, ?_⟩
        simpa [kept] using Ne.symm other
      cases event with
      | declare other =>
          refine older has.1 ?_
          rintro ⟨⟩
          exact has.2 rfl
      | read other => exact older has nofun
      | write other =>
          rcases has with rfl | old
          · exact ⟨start, [], rfl, by simp⟩
          · exact older old nofun

/-- Every read of some variables in a trace comes after a write, with no
declaration of the variable in between. -/
def ReadsFollowWrites (vars : Set Var) (trace : List (Event Var)) : Prop :=
  ∀ var ∈ vars, ∀ before rest, trace = before ++ .read var :: rest →
    ∃ earlier later, before = earlier ++ .write var :: later ∧
      .declare var ∉ later

/-- In a safe trace this holds of the variables that have no value before it. -/
theorem Safe.readsFollowWrites {assigned vars : Set Var}
    {trace : List (Event Var)} (safe : Safe assigned trace)
    (new : ∀ var ∈ vars, var ∉ assigned) : ReadsFollowWrites vars trace := by
  rintro var inVars before rest rfl
  have read := ((safe_append assigned before _).mp safe).2
  exact exists_write_of_mem_after read.1 (new var inVars)

/-! ## Behaviours and their rules -/

/-- How an execution ends, or that it has been stopped. -/
inductive Outcome
  | normal
  | returned
  | stopped
  deriving DecidableEq, Repr

/-- The traces of a piece of a program, with their outcomes. -/
abbrev Behaviour (Var : Type*) :=
  Outcome → List (Event Var) → Prop

namespace Behaviour

/-- Straight code runs to an end, or stops on the way. -/
def straight (finish : Outcome) (code : List (Event Var)) : Behaviour Var :=
  fun outcome trace =>
    (outcome = finish ∧ trace = code) ∨ (outcome = .stopped ∧ trace <+: code)

/-- The second piece runs when the first one ends normally. -/
def seq (first second : Behaviour Var) : Behaviour Var :=
  fun outcome trace =>
    (outcome ≠ .normal ∧ first outcome trace) ∨
      ∃ start rest, first .normal start ∧ second outcome rest ∧
        trace = start ++ rest

/-- Either piece runs. -/
def choice (first second : Behaviour Var) : Behaviour Var :=
  fun outcome trace => first outcome trace ∨ second outcome trace

/-- The condition runs, and then the loop ends, or the body runs and the loop
starts again. -/
inductive Loop (condition body : Behaviour Var) : Behaviour Var
  | leave {outcome : Outcome} {trace : List (Event Var)}
      (test : condition outcome trace) : Loop condition body outcome trace
  | abort {outcome : Outcome} {start trace : List (Event Var)}
      (test : condition .normal start) (run : body outcome trace)
      (abnormal : outcome ≠ .normal) :
      Loop condition body outcome (start ++ trace)
  | again {outcome : Outcome} {start middle rest : List (Event Var)}
      (test : condition .normal start) (run : body .normal middle)
      (others : Loop condition body outcome rest) :
      Loop condition body outcome (start ++ (middle ++ rest))

/-- From variables that satisfy a condition every trace is safe, and where it
ends normally the variables satisfy another one. -/
def Sound (pre : Set Var → Prop) (behaviour : Behaviour Var)
    (post : Set Var → Prop) : Prop :=
  ∀ assigned, pre assigned → ∀ outcome trace, behaviour outcome trace →
    Safe assigned trace ∧ (outcome = .normal → post (after assigned trace))

variable {pre middle post : Set Var → Prop} {first second : Behaviour Var}

theorem Sound.straight {finish : Outcome} {code : List (Event Var)}
    (safe : ∀ assigned, pre assigned → Safe assigned code)
    (ends : finish = .normal → ∀ assigned, pre assigned → post (after assigned code)) :
    Sound pre (Behaviour.straight finish code) post := by
  rintro assigned holds outcome trace (⟨rfl, rfl⟩ | ⟨rfl, stops⟩)
  · exact ⟨safe assigned holds, fun normal => ends normal assigned holds⟩
  · exact ⟨(safe assigned holds).before stops, nofun⟩

theorem Sound.seq (firstSound : Sound pre first middle)
    (secondSound : Sound middle second post) :
    Sound pre (Behaviour.seq first second) post := by
  rintro assigned holds outcome trace
    (⟨abnormal, run⟩ | ⟨start, rest, run, others, rfl⟩)
  · exact ⟨(firstSound assigned holds outcome trace run).1,
      fun normal => absurd normal abnormal⟩
  · obtain ⟨startSafe, reached⟩ := firstSound assigned holds .normal start run
    obtain ⟨restSafe, ends⟩ := secondSound _ (reached rfl) outcome rest others
    rw [safe_append, after_append]
    exact ⟨⟨startSafe, restSafe⟩, ends⟩

theorem Sound.choice (firstSound : Sound pre first post)
    (secondSound : Sound pre second post) :
    Sound pre (Behaviour.choice first second) post := by
  rintro assigned holds outcome trace (run | run)
  · exact firstSound assigned holds outcome trace run
  · exact secondSound assigned holds outcome trace run

/-- The rule of the loop, with what holds before the condition and what holds
behind it. -/
theorem Sound.loop {condition body : Behaviour Var}
    (conditionSound : Sound pre condition middle) (bodySound : Sound middle body pre) :
    Sound pre (Loop condition body) middle := by
  intro assigned holds outcome trace run
  induction run generalizing assigned with
  | leave test => exact conditionSound assigned holds _ _ test
  | abort test run abnormal =>
      obtain ⟨startSafe, reached⟩ := conditionSound assigned holds _ _ test
      obtain ⟨bodySafe, -⟩ := bodySound _ (reached rfl) _ _ run
      rw [safe_append]
      exact ⟨⟨startSafe, bodySafe⟩, fun normal => absurd normal abnormal⟩
  | again test run others inductionHypothesis =>
      obtain ⟨startSafe, reached⟩ := conditionSound assigned holds _ _ test
      obtain ⟨bodySafe, back⟩ := bodySound _ (reached rfl) _ _ run
      obtain ⟨restSafe, ends⟩ := inductionHypothesis _ (back rfl)
      simp only [safe_append, after_append]
      exact ⟨⟨startSafe, bodySafe, restSafe⟩, ends⟩

theorem Sound.consequence {weaker stronger : Set Var → Prop}
    (sound : Sound weaker first stronger) (before : ∀ assigned, pre assigned → weaker assigned)
    (ends : ∀ assigned, stronger assigned → post assigned) : Sound pre first post :=
  fun assigned holds outcome trace run =>
    let result := sound assigned (before assigned holds) outcome trace run
    ⟨result.1, fun normal => ends _ (result.2 normal)⟩

/-- A piece that never ends normally has every condition behind it. -/
theorem Sound.of_abnormal (sound : Sound pre first middle)
    (abnormal : ∀ trace, ¬ first .normal trace) : Sound pre first post := by
  intro assigned holds outcome trace run
  refine ⟨(sound assigned holds outcome trace run).1, ?_⟩
  rintro rfl
  exact absurd run (abnormal trace)

/-- A piece declares these variables at most. -/
def Declares (behaviour : Behaviour Var) (vars : Set Var) : Prop :=
  ∀ outcome trace, behaviour outcome trace → ∀ var, .declare var ∈ trace → var ∈ vars

variable {vars others : Set Var}

theorem Declares.mono (declares : Declares first vars) (included : vars ⊆ others) :
    Declares first others :=
  fun outcome trace run var declared =>
    included (declares outcome trace run var declared)

theorem Declares.straight {finish : Outcome} {code : List (Event Var)}
    (declares : ∀ var, .declare var ∈ code → var ∈ vars) :
    Declares (Behaviour.straight finish code) vars := by
  rintro outcome trace (⟨-, rfl⟩ | ⟨-, stops⟩) var declared
  · exact declares var declared
  · exact declares var (stops.subset declared)

theorem Declares.seq (firstDeclares : Declares first vars)
    (secondDeclares : Declares second vars) : Declares (Behaviour.seq first second) vars := by
  rintro outcome trace (⟨-, run⟩ | ⟨start, rest, run, other, rfl⟩) var declared
  · exact firstDeclares outcome trace run var declared
  · rcases List.mem_append.mp declared with inStart | inRest
    · exact firstDeclares .normal start run var inStart
    · exact secondDeclares outcome rest other var inRest

theorem Declares.choice (firstDeclares : Declares first vars)
    (secondDeclares : Declares second vars) :
    Declares (Behaviour.choice first second) vars := by
  rintro outcome trace (run | run)
  · exact firstDeclares outcome trace run
  · exact secondDeclares outcome trace run

theorem Declares.loop {condition body : Behaviour Var}
    (conditionDeclares : Declares condition vars) (bodyDeclares : Declares body vars) :
    Declares (Loop condition body) vars := by
  intro outcome trace run var declared
  induction run with
  | leave test => exact conditionDeclares _ _ test var declared
  | abort test run abnormal =>
      rcases List.mem_append.mp declared with inStart | inBody
      · exact conditionDeclares _ _ test var inStart
      · exact bodyDeclares _ _ run var inBody
  | again test run others inductionHypothesis =>
      rcases List.mem_append.mp declared with inStart | declared
      · exact conditionDeclares _ _ test var inStart
      · rcases List.mem_append.mp declared with inBody | inRest
        · exact bodyDeclares _ _ run var inBody
        · exact inductionHypothesis inRest

/-- A condition on variables that a piece does not declare holds behind it. -/
theorem Sound.frame (sound : Sound pre first middle) (declares : Declares first vars)
    (needs : ∀ assigned later, pre assigned →
      (∀ var ∈ assigned, var ∉ vars → var ∈ later) → post later) :
    Sound pre first post := by
  intro assigned holds outcome trace run
  refine ⟨(sound assigned holds outcome trace run).1, fun _ => ?_⟩
  exact needs assigned _ holds fun var has outside =>
    mem_after has fun declared => outside (declares outcome trace run var declared)

end Behaviour

end Sulfur.Trace
