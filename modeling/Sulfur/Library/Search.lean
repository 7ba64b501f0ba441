import Mathlib.Tactic

/-!
# Depth-first search with remembered results

A search of a directed graph keeps a mark for each vertex and answers whether
the vertex is sound: everything reachable from it is ready and has no missing
successor, and no cycle is reachable from it.  A vertex that is met while its
own search is still going on closes a cycle.
-/

namespace Sulfur.Search

open Relation

/-- How far the search of a vertex is. -/
inductive Mark
  | pending
  | active
  | done
  | failed
  deriving DecidableEq, Repr

/-- A vertex is entered and left when it is searched, and refused when it is
not ready. -/
inductive Event (V : Type*)
  | enter (vertex : V)
  | leave (vertex : V)
  | refuse (vertex : V)
  deriving DecidableEq, Repr

/-- A directed graph; a successor may be missing. -/
structure Graph (V : Type*) where
  ready : V → Prop
  next : V → List (Option V)

variable {V : Type*}

/-- The vertex that an event is about. -/
def Event.vertex : Event V → V
  | .enter vertex => vertex
  | .leave vertex => vertex
  | .refuse vertex => vertex

namespace Graph

variable (graph : Graph V)

/-- The target is a successor of the source. -/
def Edge (source target : V) : Prop :=
  some target ∈ graph.next source

/-- What a vertex has to meet by itself. -/
def Complete (vertex : V) : Prop :=
  graph.ready vertex ∧ none ∉ graph.next vertex

/-- Everything reachable is complete and on no cycle. -/
def Sound (vertex : V) : Prop :=
  ∀ other, ReflTransGen graph.Edge vertex other →
    graph.Complete other ∧ ¬TransGen graph.Edge other other

/-- Soundness as the search establishes it, from the successors up. -/
inductive Grounded : V → Prop
  | intro (vertex : V) (complete : graph.Complete vertex)
      (targets : ∀ target, graph.Edge vertex target → Grounded target) :
      Grounded vertex

variable {graph}

theorem Sound.edge {source target : V} (sound : graph.Sound source)
    (edge : graph.Edge source target) : graph.Sound target :=
  fun other reaches => sound other (.head edge reaches)

theorem Sound.complete {vertex : V} (sound : graph.Sound vertex) :
    graph.Complete vertex :=
  (sound vertex .refl).1

theorem Grounded.reaches {vertex other : V} (grounded : graph.Grounded vertex)
    (reaches : ReflTransGen graph.Edge vertex other) : graph.Grounded other := by
  induction reaches with
  | refl => exact grounded
  | tail _ edge inductionHypothesis =>
      cases inductionHypothesis with
      | intro _ _ targets => exact targets _ edge

/-- A grounded vertex is on no cycle: the first step of the cycle leads to a
vertex on the same cycle. -/
theorem Grounded.acyclic {vertex : V} (grounded : graph.Grounded vertex) :
    ¬TransGen graph.Edge vertex vertex := by
  induction grounded with
  | intro vertex _ targets inductionHypothesis =>
      intro cycle
      obtain ⟨target, edge, back⟩ := TransGen.head'_iff.mp cycle
      exact inductionHypothesis target edge (TransGen.tail' back edge)

theorem Grounded.sound {vertex : V} (grounded : graph.Grounded vertex) :
    graph.Sound vertex := by
  intro other reaches
  have otherGrounded := grounded.reaches reaches
  refine ⟨?_, otherGrounded.acyclic⟩
  cases otherGrounded with
  | intro _ complete _ => exact complete

end Graph

variable [DecidableEq V]

/-- Give a vertex a mark. -/
def mark (marks : V → Mark) (vertex : V) (new : Mark) : V → Mark :=
  Function.update marks vertex new

@[simp]
theorem mark_self (marks : V → Mark) (vertex : V) (new : Mark) :
    mark marks vertex new vertex = new := by
  simp [mark]

theorem mark_of_ne {marks : V → Mark} {vertex other : V} (new : Mark)
    (distinct : other ≠ vertex) : mark marks vertex new other = marks other := by
  simp [mark, distinct]

/-- The mark of a vertex after its search. -/
def outcome (ok : Bool) : Mark :=
  if ok then .done else .failed

/-- `Visits graph before targets ok after events`: the search of a list of
successors, the first one with everything below it before the others. -/
inductive Visits (graph : Graph V) :
    (V → Mark) → List (Option V) → Bool → (V → Mark) → List (Event V) → Prop
  | nil {before : V → Mark} : Visits graph before [] true before []
  | missing {before after : V → Mark} {rest : List (Option V)} {ok : Bool}
      {events : List (Event V)} (others : Visits graph before rest ok after events) :
      Visits graph before (none :: rest) false after events
  | known {before after : V → Mark} {vertex : V} {rest : List (Option V)} {ok : Bool}
      {events : List (Event V)} (seen : before vertex ≠ .pending)
      (others : Visits graph before rest ok after events) :
      Visits graph before (some vertex :: rest) (before vertex == .done && ok) after
        events
  | refused {before after : V → Mark} {vertex : V} {rest : List (Option V)}
      {ok : Bool} {events : List (Event V)} (unseen : before vertex = .pending)
      (notReady : ¬graph.ready vertex)
      (others : Visits graph (mark before vertex .failed) rest ok after events) :
      Visits graph before (some vertex :: rest) false after (.refuse vertex :: events)
  | searched {before between after : V → Mark} {vertex : V} {rest : List (Option V)}
      {inside ok : Bool} {below events : List (Event V)}
      (unseen : before vertex = .pending) (ready : graph.ready vertex)
      (targets : Visits graph (mark before vertex .active) (graph.next vertex) inside
        between below)
      (others : Visits graph (mark between vertex (outcome inside)) rest ok after
        events) :
      Visits graph before (some vertex :: rest) (inside && ok) after
        (.enter vertex :: below ++ .leave vertex :: events)

variable {graph : Graph V}

/-! ## What a search does to the marks -/

/-- The marks of a search against those before it. -/
structure Extends (before after : V → Mark) : Prop where
  kept : ∀ vertex, before vertex ≠ .pending → after vertex = before vertex
  closed : ∀ vertex, after vertex = .active → before vertex = .active
  pending : ∀ vertex, after vertex = .pending → before vertex = .pending

omit [DecidableEq V] in
theorem Extends.refl (marks : V → Mark) : Extends marks marks :=
  ⟨fun _ _ => rfl, fun _ same => same, fun _ same => same⟩

omit [DecidableEq V] in
theorem Extends.trans {first second third : V → Mark} (left : Extends first second)
    (right : Extends second third) : Extends first third where
  kept vertex known := by
    have same := left.kept vertex known
    rw [right.kept vertex (by rwa [same]), same]
  closed vertex active := left.closed vertex (right.closed vertex active)
  pending vertex unseen := left.pending vertex (right.pending vertex unseen)

theorem outcome_ne_active (ok : Bool) : outcome ok ≠ .active := by
  cases ok <;> simp [outcome]

theorem outcome_ne_pending (ok : Bool) : outcome ok ≠ .pending := by
  cases ok <;> simp [outcome]

/-- A vertex that was not seen before gets a mark. -/
theorem Extends.marked {before : V → Mark} {vertex : V} (new : Mark)
    (unseen : before vertex = .pending) (notActive : new ≠ .active) :
    Extends before (mark before vertex new) where
  kept other known := by
    refine mark_of_ne new ?_
    rintro rfl
    exact known unseen
  closed other active := by
    by_cases same : other = vertex
    · subst same
      rw [mark_self] at active
      exact absurd active notActive
    · rwa [mark_of_ne new same] at active
  pending other pending := by
    by_cases same : other = vertex
    · subst same
      exact unseen
    · rwa [mark_of_ne new same] at pending

/-- Entering a vertex, searching its successors and leaving it. -/
theorem Extends.searched {before after : V → Mark} {vertex : V} (ok : Bool)
    (known : before vertex = .pending)
    (inside : Extends (mark before vertex .active) after) :
    Extends before (mark after vertex (outcome ok)) where
  kept other seen := by
    have distinct : other ≠ vertex := by
      rintro rfl
      exact seen known
    have same : mark before vertex .active other = before other := mark_of_ne _ distinct
    rw [mark_of_ne _ distinct, inside.kept other (by rwa [same]), same]
  closed other active := by
    by_cases same : other = vertex
    · subst same
      rw [mark_self] at active
      exact absurd active (outcome_ne_active ok)
    · rw [mark_of_ne _ same] at active
      have earlier := inside.closed other active
      rwa [mark_of_ne _ same] at earlier
  pending other unseen := by
    by_cases same : other = vertex
    · subst same
      exact known
    · rw [mark_of_ne _ same] at unseen
      have earlier := inside.pending other unseen
      rwa [mark_of_ne _ same] at earlier

theorem Visits.extends {before after : V → Mark} {targets : List (Option V)}
    {ok : Bool} {events : List (Event V)}
    (visits : Visits graph before targets ok after events) :
    Extends before after := by
  induction visits with
  | nil => exact .refl _
  | missing _ others => exact others
  | known _ _ others => exact others
  | @refused before _ vertex _ _ _ unseen _ _ others =>
      refine Extends.trans ?_ others
      exact .marked _ unseen (by simp)
  | searched unseen _ _ _ inside others =>
      exact (inside.searched _ unseen).trans others

/-- Every vertex of the list is seen after its search. -/
theorem Visits.seen {before after : V → Mark} {targets : List (Option V)} {ok : Bool}
    {events : List (Event V)} (visits : Visits graph before targets ok after events)
    {target : V} (listed : some target ∈ targets) : after target ≠ .pending := by
  induction visits with
  | nil => simp at listed
  | missing _ inductionHypothesis =>
      exact inductionHypothesis (by simpa using listed)
  | known seen others inductionHypothesis =>
      rcases List.mem_cons.mp listed with same | inRest
      · cases same
        rw [others.extends.kept target seen]
        exact seen
      · exact inductionHypothesis inRest
  | refused _ _ others inductionHypothesis =>
      rcases List.mem_cons.mp listed with same | inRest
      · cases same
        rw [others.extends.kept target (by simp)]
        simp
      · exact inductionHypothesis inRest
  | @searched _ _ _ _ _ inside _ _ _ _ _ _ others _ inductionHypothesis =>
      rcases List.mem_cons.mp listed with same | inRest
      · cases same
        have marked := outcome_ne_pending inside
        rw [others.extends.kept target (by simpa using marked)]
        simpa using marked
      · exact inductionHypothesis inRest

/-- The search of one vertex and then that of others. -/
theorem Visits.cons {before between after : V → Mark} {vertex : V}
    {rest : List (Option V)} {first others : Bool} {events later : List (Event V)}
    (visit : Visits graph before [some vertex] first between events)
    (visits : Visits graph between rest others after later) :
    Visits graph before (some vertex :: rest) (first && others) after
      (events ++ later) := by
  cases visit with
  | known seen nothing =>
      cases nothing
      simpa using Visits.known seen visits
  | refused unseen notReady nothing =>
      cases nothing
      simpa using Visits.refused unseen notReady visits
  | searched unseen ready targets nothing =>
      cases nothing
      simpa using Visits.searched unseen ready targets visits

/-- How many of some vertices are not seen. -/
def unseen (vertices : Finset V) (marks : V → Mark) : Nat :=
  (vertices.filter fun vertex => marks vertex = .pending).card

omit [DecidableEq V] in
theorem unseen_le_card (vertices : Finset V) (marks : V → Mark) :
    unseen vertices marks ≤ vertices.card :=
  Finset.card_filter_le _ _

omit [DecidableEq V] in
theorem Extends.unseen_le {before after : V → Mark} (extends_ : Extends before after)
    (vertices : Finset V) : unseen vertices after ≤ unseen vertices before := by
  refine Finset.card_le_card fun vertex listed => ?_
  rw [Finset.mem_filter] at listed ⊢
  exact ⟨listed.1, extends_.pending vertex listed.2⟩

/-- Entering a vertex leaves one less to see. -/
theorem unseen_enter_lt {marks : V → Mark} {vertices : Finset V} {vertex : V}
    (listed : vertex ∈ vertices) (pending : marks vertex = .pending) :
    unseen vertices (mark marks vertex .active) < unseen vertices marks := by
  refine Finset.card_lt_card ⟨?_, ?_⟩
  · intro other isUnseen
    rw [Finset.mem_filter] at isUnseen ⊢
    have distinct : other ≠ vertex := by
      rintro rfl
      simp at isUnseen
    rwa [mark_of_ne _ distinct] at isUnseen
  · intro back
    have entered := back (Finset.mem_filter.mpr ⟨listed, pending⟩)
    simp at entered

/-! ## The answer is exact -/

/-- What the marks say about the graph. -/
structure Known (graph : Graph V) (marks : V → Mark) : Prop where
  grounded : ∀ vertex, marks vertex = .done → graph.Grounded vertex
  targets : ∀ vertex, marks vertex = .done →
    ∀ target, graph.Edge vertex target → marks target = .done
  failed : ∀ vertex, marks vertex = .failed → ¬graph.Sound vertex

omit [DecidableEq V] in
/-- Everything reachable from a vertex that is done is done. -/
theorem Known.reaches {marks : V → Mark} (known : Known graph marks) {vertex other : V}
    (done : marks vertex = .done) (reaches : ReflTransGen graph.Edge vertex other) :
    marks other = .done := by
  induction reaches with
  | refl => exact done
  | tail _ edge inductionHypothesis => exact known.targets _ inductionHypothesis _ edge

/-- A new mark keeps what the marks say when it is right about its vertex and
takes no `done` away. -/
theorem Known.marked {marks : V → Mark} (known : Known graph marks) (vertex : V)
    (new : Mark) (notDone : marks vertex ≠ .done)
    (done : new = .done → graph.Grounded vertex ∧
      ∀ target, graph.Edge vertex target → marks target = .done)
    (failed : new = .failed → ¬graph.Sound vertex) :
    Known graph (mark marks vertex new) := by
  have keepsDone {other : V} (otherDone : marks other = .done) :
      mark marks vertex new other = .done := by
    rw [mark_of_ne new, otherDone]
    rintro rfl
    exact notDone otherDone
  constructor
  · intro other otherDone
    by_cases same : other = vertex
    · subst same
      exact (done (by simpa using otherDone)).1
    · rw [mark_of_ne new same] at otherDone
      exact known.grounded other otherDone
  · intro other otherDone target edge
    by_cases same : other = vertex
    · subst same
      exact keepsDone ((done (by simpa using otherDone)).2 target edge)
    · rw [mark_of_ne new same] at otherDone
      exact keepsDone (known.targets other otherDone target edge)
  · intro other otherFailed
    by_cases same : other = vertex
    · subst same
      exact failed (by simpa using otherFailed)
    · rw [mark_of_ne new same] at otherFailed
      exact known.failed other otherFailed

/-- Every vertex whose search is going on leads to the listed ones. -/
def Below (graph : Graph V) (marks : V → Mark) (targets : List (Option V)) : Prop :=
  ∀ target, some target ∈ targets →
    ∀ vertex, marks vertex = .active → TransGen graph.Edge vertex target

omit [DecidableEq V] in
theorem Below.tail {marks : V → Mark} {head : Option V} {rest : List (Option V)}
    (below : Below graph marks (head :: rest)) : Below graph marks rest :=
  fun target listed => below target (List.mem_cons_of_mem _ listed)

omit [DecidableEq V] in
theorem Below.mono {before after : V → Mark} {targets : List (Option V)}
    (below : Below graph before targets)
    (closed : ∀ vertex, after vertex = .active → before vertex = .active) :
    Below graph after targets :=
  fun target listed vertex active => below target listed vertex (closed vertex active)

/-- Inside the search of a vertex, its successors are below it as well. -/
theorem Below.inside {marks : V → Mark} {vertex : V} {rest : List (Option V)}
    (below : Below graph marks (some vertex :: rest)) :
    Below graph (mark marks vertex .active) (graph.next vertex) := by
  intro target edge other active
  by_cases same : other = vertex
  · subst same
    exact .single edge
  · rw [mark_of_ne _ same] at active
    exact (below vertex (List.mem_cons_self ..) other active).tail edge

/-- What a search finds out about the listed vertices. -/
structure Answers (graph : Graph V) (targets : List (Option V)) (ok : Bool)
    (after : V → Mark) : Prop where
  known : Known graph after
  accepts : ok = true →
    none ∉ targets ∧ ∀ target, some target ∈ targets → after target = .done
  rejects : ok = false →
    none ∈ targets ∨ ∃ target, some target ∈ targets ∧ ¬graph.Sound target

omit [DecidableEq V] in
/-- A rejected list stays rejected with more in front of it. -/
theorem Answers.rejects_cons {rest : List (Option V)} {ok : Bool} {after : V → Mark}
    (answers : Answers graph rest ok after) (head : Option V) (rejected : ok = false) :
    none ∈ head :: rest ∨ ∃ target, some target ∈ head :: rest ∧ ¬graph.Sound target := by
  rcases answers.rejects rejected with dangling | ⟨target, listed, notSound⟩
  · exact Or.inl (List.mem_cons_of_mem _ dangling)
  · exact Or.inr ⟨target, List.mem_cons_of_mem _ listed, notSound⟩

omit [DecidableEq V] in
/-- One more vertex in front of a list: it is done when it is accepted and not
sound when it is rejected. -/
theorem Answers.cons {rest : List (Option V)} {ok : Bool} {after : V → Mark}
    (answers : Answers graph rest ok after) (vertex : V) (verdict : Bool)
    (accepted : verdict = true → after vertex = .done)
    (rejected : verdict = false → ¬graph.Sound vertex) :
    Answers graph (some vertex :: rest) (verdict && ok) after where
  known := answers.known
  accepts both := by
    obtain ⟨headOk, restOk⟩ := Bool.and_eq_true_iff.mp both
    obtain ⟨complete, restDone⟩ := answers.accepts restOk
    refine ⟨by simpa using complete, ?_⟩
    intro target listed
    rcases List.mem_cons.mp listed with same | inRest
    · cases same
      exact accepted headOk
    · exact restDone target inRest
  rejects one := by
    cases verdict with
    | false => exact Or.inr ⟨vertex, List.mem_cons_self .., rejected rfl⟩
    | true => exact answers.rejects_cons _ (by simpa using one)

/-- The search answers rightly from marks that are right, when the vertices
whose search is going on lead to the listed ones: meeting one of them again
closes a cycle. -/
theorem Visits.answers {before after : V → Mark} {targets : List (Option V)} {ok : Bool}
    {events : List (Event V)} (visits : Visits graph before targets ok after events)
    (known : Known graph before) (below : Below graph before targets) :
    Answers graph targets ok after := by
  induction visits with
  | nil => exact ⟨known, fun _ => by simp, by simp⟩
  | missing _ inductionHypothesis =>
      have answers := inductionHypothesis known below.tail
      exact ⟨answers.known, by simp, fun _ => Or.inl (List.mem_cons_self ..)⟩
  | @known before _ vertex _ _ _ seen others inductionHypothesis =>
      have answers := inductionHypothesis known below.tail
      refine answers.cons vertex _ ?_ ?_
      · intro done
        rw [others.extends.kept vertex seen]
        simpa using done
      · intro notDone sound
        cases mark : before vertex with
        | pending => exact seen mark
        | done => simp [mark] at notDone
        | failed => exact known.failed vertex mark sound
        | active =>
            have cycle := below vertex (List.mem_cons_self ..) vertex mark
            exact (sound vertex .refl).2 cycle
  | @refused before _ vertex _ ok _ unseen notReady others inductionHypothesis =>
      have notSound : ¬graph.Sound vertex := fun sound => notReady sound.complete.1
      have marked := known.marked vertex .failed (by simp [unseen]) (by simp)
        (fun _ => notSound)
      have extends_ := Extends.marked .failed unseen (by simp)
      have answers := inductionHypothesis marked (below.tail.mono extends_.closed)
      exact answers.cons vertex false (by simp) (fun _ => notSound)
  | @searched before between after vertex rest inside ok _ _ unseen ready targets others
      insideHypothesis inductionHypothesis =>
      have entered := known.marked vertex .active (by simp [unseen]) (by simp) (by simp)
      have found := insideHypothesis entered below.inside
      have stillActive : between vertex = .active := by
        rw [targets.extends.kept vertex (by simp)]
        simp
      have rejected (notInside : inside = false) : ¬graph.Sound vertex := by
        intro sound
        rcases found.rejects notInside with dangling | ⟨target, edge, notSound⟩
        · exact sound.complete.2 dangling
        · exact notSound (sound.edge edge)
      have left := found.known.marked vertex (outcome inside)
        (by simp [stillActive])
        (by
          intro isDone
          have accepted : inside = true := by
            cases inside <;> simp_all [outcome]
          obtain ⟨complete, done⟩ := found.accepts accepted
          refine ⟨.intro vertex ⟨ready, complete⟩ ?_, done⟩
          exact fun target edge => found.known.grounded target (done target edge))
        (by
          intro isFailed
          refine rejected ?_
          cases inside <;> simp_all [outcome])
      have extends_ := targets.extends.searched inside unseen
      have answers := inductionHypothesis left (below.tail.mono extends_.closed)
      refine answers.cons vertex inside ?_ rejected
      rintro rfl
      rw [others.extends.kept vertex] <;> simp [outcome]

/-! ## The order of the events -/

/-- The vertex was entered and not left yet. -/
def Open (past : List (Event V)) (vertex : V) : Prop :=
  .enter vertex ∈ past ∧ .leave vertex ∉ past

/-- When a vertex is left, each of its successors was left or refused before,
or is still open and leads back to it. -/
def Event.Due (graph : Graph V) (past : List (Event V)) : Event V → Prop
  | .leave vertex =>
      ∀ target, graph.Edge vertex target →
        .leave target ∈ past ∨ .refuse target ∈ past ∨
          Open past target ∧ TransGen graph.Edge target vertex
  | .enter _ => True
  | .refuse _ => True

/-- Every event of a list is due after those before it. -/
def Ordered (graph : Graph V) : List (Event V) → List (Event V) → Prop
  | _, [] => True
  | past, event :: rest => event.Due graph past ∧ Ordered graph (past ++ [event]) rest

/-- The vertices that were seen have their events: those with a result were left
or refused, the others were entered. -/
structure Recorded (marks : V → Mark) (past : List (Event V)) : Prop where
  finished : ∀ vertex, marks vertex = .done ∨ marks vertex = .failed →
    .leave vertex ∈ past ∨ .refuse vertex ∈ past
  entered : ∀ vertex, marks vertex = .active → .enter vertex ∈ past

omit [DecidableEq V] in
theorem ordered_append {past first second : List (Event V)} :
    Ordered graph past (first ++ second) ↔
      Ordered graph past first ∧ Ordered graph (past ++ first) second := by
  induction first generalizing past with
  | nil => simp [Ordered]
  | cons event rest inductionHypothesis =>
      simp only [List.cons_append, Ordered, inductionHypothesis, and_assoc,
        List.append_assoc, List.nil_append]

omit [DecidableEq V] in
/-- What the order says of a point inside the list. -/
theorem Ordered.due {past earlier later : List (Event V)} {event : Event V}
    (ordered : Ordered graph past (earlier ++ event :: later)) :
    event.Due graph (past ++ earlier) :=
  (ordered_append.mp ordered).2.1

omit [DecidableEq V] in
/-- Nothing is recorded before the first event. -/
theorem recorded_pending {marks : V → Mark} (pending : ∀ vertex, marks vertex = .pending) :
    Recorded marks [] :=
  ⟨by simp [pending], by simp [pending]⟩

theorem Recorded.marked {marks : V → Mark} {past : List (Event V)}
    (recorded : Recorded marks past) {vertex : V} {new : Mark} {event : Event V}
    (finished : new = .done ∨ new = .failed →
      event = .leave vertex ∨ event = .refuse vertex)
    (entered : new = .active → event = .enter vertex) :
    Recorded (mark marks vertex new) (past ++ [event]) := by
  constructor
  · intro other marked
    by_cases same : other = vertex
    · subst same
      rw [mark_self] at marked
      rcases finished marked with rfl | rfl <;> simp
    · rw [mark_of_ne new same] at marked
      rcases recorded.finished other marked with left | refused
      · exact Or.inl (List.mem_append_left _ left)
      · exact Or.inr (List.mem_append_left _ refused)
  · intro other active
    by_cases same : other = vertex
    · subst same
      rw [mark_self] at active
      simp [entered active]
    · rw [mark_of_ne new same] at active
      exact List.mem_append_left _ (recorded.entered other active)

/-- The events of a search come in order. -/
theorem Visits.ordered {before after : V → Mark} {targets : List (Option V)} {ok : Bool}
    {events : List (Event V)} (visits : Visits graph before targets ok after events)
    {past : List (Event V)} (recorded : Recorded before past)
    (below : Below graph before targets) :
    Ordered graph past events ∧ Recorded after (past ++ events) := by
  induction visits generalizing past with
  | nil => exact ⟨trivial, by simpa using recorded⟩
  | missing _ inductionHypothesis => exact inductionHypothesis recorded below.tail
  | known _ _ inductionHypothesis => exact inductionHypothesis recorded below.tail
  | @refused before _ vertex _ _ _ unseen _ _ inductionHypothesis =>
      have refused : Recorded (mark before vertex .failed) (past ++ [.refuse vertex]) :=
        recorded.marked (fun _ => Or.inr rfl) (by simp)
      have extends_ := Extends.marked .failed unseen (by simp)
      obtain ⟨ordered, after⟩ :=
        inductionHypothesis refused (below.tail.mono extends_.closed)
      exact ⟨⟨trivial, ordered⟩, by simpa using after⟩
  | @searched before between after vertex rest inside ok inner events unseen ready targets
      others insideHypothesis inductionHypothesis =>
      have entered : Recorded (mark before vertex .active) (past ++ [.enter vertex]) :=
        recorded.marked (by simp) (fun _ => rfl)
      obtain ⟨insideOrdered, found⟩ := insideHypothesis entered below.inside
      have left : Recorded (mark between vertex (outcome inside))
          (past ++ [.enter vertex] ++ inner ++ [.leave vertex]) :=
        found.marked (fun _ => Or.inl rfl) (by cases inside <;> simp [outcome])
      have extends_ := targets.extends.searched inside unseen
      obtain ⟨ordered, after⟩ :=
        inductionHypothesis left (below.tail.mono extends_.closed)
      have due : (Event.leave vertex).Due graph (past ++ [.enter vertex] ++ inner) := by
        intro target edge
        cases reached : between target with
        | pending => exact absurd reached (targets.seen edge)
        | done =>
            exact (found.finished target (Or.inl reached)).imp id Or.inl
        | failed =>
            exact (found.finished target (Or.inr reached)).imp id Or.inl
        | active =>
            -- the search of the successor is still going on, so it is above
            have back : TransGen graph.Edge target vertex := by
              have active := targets.extends.closed target reached
              by_cases same : target = vertex
              · subst same
                exact .single edge
              · rw [mark_of_ne _ same] at active
                exact below vertex (List.mem_cons_self ..) target active
            by_cases left : .leave target ∈ past ++ [.enter vertex] ++ inner
            · exact Or.inl left
            · exact Or.inr (Or.inr ⟨⟨found.entered target reached, left⟩, back⟩)
      refine ⟨⟨trivial, ?_⟩, by simpa using after⟩
      exact ordered_append.mpr ⟨insideOrdered, due, ordered⟩

/-- A search has events of the vertices it sees first only, and no event
twice. -/
theorem Visits.once {before after : V → Mark} {targets : List (Option V)} {ok : Bool}
    {events : List (Event V)} (visits : Visits graph before targets ok after events) :
    events.Nodup ∧
      ∀ event ∈ events, before event.vertex = .pending ∧ after event.vertex ≠ .pending := by
  induction visits with
  | nil => simp
  | missing _ inductionHypothesis => exact inductionHypothesis
  | known _ _ inductionHypothesis => exact inductionHypothesis
  | @refused before after vertex _ _ _ unseen _ others inductionHypothesis =>
      obtain ⟨nodup, new⟩ := inductionHypothesis
      have extends_ := Extends.marked .failed unseen (by simp)
      have reached : after vertex ≠ .pending := by
        rw [others.extends.kept vertex (by simp)]
        simp
      constructor
      · refine List.nodup_cons.mpr ⟨?_, nodup⟩
        intro again
        simpa [Event.vertex] using (new _ again).1
      · intro event listed
        rcases List.mem_cons.mp listed with rfl | inRest
        · exact ⟨unseen, reached⟩
        · exact ⟨extends_.pending _ (new event inRest).1, (new event inRest).2⟩
  | @searched before between after vertex rest inside ok inner events unseen ready targets
      others insideHypothesis inductionHypothesis =>
      obtain ⟨insideNodup, insideNew⟩ := insideHypothesis
      obtain ⟨nodup, new⟩ := inductionHypothesis
      have marked := outcome_ne_pending inside
      have reached : after vertex ≠ .pending := by
        rw [others.extends.kept vertex (by simpa using marked)]
        simpa using marked
      have inner_ne {event : Event V} (listed : event ∈ inner) :
          event.vertex ≠ vertex := by
        intro same
        have := (insideNew event listed).1
        simp [same] at this
      have events_ne {event : Event V} (listed : event ∈ events) :
          event.vertex ≠ vertex := by
        intro same
        have := (new event listed).1
        rw [same, mark_self] at this
        exact marked this
      have apart : inner.Disjoint events := by
        intro event first second
        have later := (new event second).1
        rw [mark_of_ne _ (events_ne second)] at later
        exact (insideNew event first).2 later
      have innerKept {event : Event V} (listed : event ∈ inner) :
          after event.vertex ≠ .pending := by
        have seen := (insideNew event listed).2
        have same : mark between vertex (outcome inside) event.vertex =
            between event.vertex := mark_of_ne _ (inner_ne listed)
        rw [others.extends.kept _ (by rwa [same]), same]
        exact seen
      have extends_ := targets.extends.searched inside unseen
      constructor
      · have rest : (.leave vertex :: events).Nodup :=
          List.nodup_cons.mpr ⟨fun again => events_ne again rfl, nodup⟩
        have apart : inner.Disjoint (.leave vertex :: events) :=
          List.disjoint_cons_right.mpr ⟨fun again => inner_ne again rfl, apart⟩
        refine List.nodup_cons.mpr ⟨?_, insideNodup.append rest apart⟩
        intro again
        rcases List.mem_append.mp again with inInner | inRest
        · exact inner_ne inInner rfl
        · rcases List.mem_cons.mp inRest with same | inEvents
          · cases same
          · exact events_ne inEvents rfl
      · intro event listed
        simp only [List.cons_append, List.mem_cons, List.mem_append] at listed
        rcases listed with rfl | inInner | rfl | inRest
        · exact ⟨unseen, reached⟩
        · refine ⟨?_, innerKept inInner⟩
          have := (insideNew event inInner).1
          rwa [mark_of_ne _ (inner_ne inInner)] at this
        · exact ⟨unseen, reached⟩
        · exact ⟨extends_.pending _ (new event inRest).1, (new event inRest).2⟩

/-! ## One search after the other -/

/-- `Session graph before calls answers after events`: searches of single
vertices, each from the marks that the earlier ones left. -/
inductive Session (graph : Graph V) :
    (V → Mark) → List V → List Bool → (V → Mark) → List (Event V) → Prop
  | nil {before : V → Mark} : Session graph before [] [] before []
  | cons {before between after : V → Mark} {vertex : V} {calls : List V} {ok : Bool}
      {answers : List Bool} {events later : List (Event V)}
      (visit : Visits graph before [some vertex] ok between events)
      (others : Session graph between calls answers after later) :
      Session graph before (vertex :: calls) (ok :: answers) after (events ++ later)

/-- The marks between two searches of a session. -/
structure Settled (graph : Graph V) (marks : V → Mark) : Prop where
  known : Known graph marks
  idle : ∀ vertex, marks vertex ≠ .active

omit [DecidableEq V] in
theorem Settled.below {marks : V → Mark} (settled : Settled graph marks)
    (targets : List (Option V)) : Below graph marks targets :=
  fun _ _ vertex active => absurd active (settled.idle vertex)

omit [DecidableEq V] in
/-- Nothing is seen before a session. -/
theorem settled_pending {marks : V → Mark} (pending : ∀ vertex, marks vertex = .pending) :
    Settled graph marks :=
  ⟨⟨by simp [pending], by simp [pending], by simp [pending]⟩, by simp [pending]⟩

theorem Visits.settled {before after : V → Mark} {targets : List (Option V)} {ok : Bool}
    {events : List (Event V)} (visits : Visits graph before targets ok after events)
    (settled : Settled graph before) : Settled graph after where
  known := (visits.answers settled.known (settled.below targets)).known
  idle vertex active := settled.idle vertex (visits.extends.closed vertex active)

/-- The answer about a single vertex: true exactly for the sound ones, which
are then done together with everything they reach. -/
theorem Visits.single {before after : V → Mark} {vertex : V} {ok : Bool}
    {events : List (Event V)} (visit : Visits graph before [some vertex] ok after events)
    (settled : Settled graph before) :
    (ok = true ↔ graph.Sound vertex) ∧
      (ok = true → ∀ other, ReflTransGen graph.Edge vertex other → after other = .done) := by
  have answers := visit.answers settled.known (settled.below _)
  have done (accepted : ok = true) : after vertex = .done :=
    (answers.accepts accepted).2 vertex (List.mem_cons_self ..)
  refine ⟨⟨?_, ?_⟩, ?_⟩
  · intro accepted
    exact (answers.known.grounded vertex (done accepted)).sound
  · intro sound
    by_contra rejected
    rcases answers.rejects (by simpa using rejected) with dangling | ⟨target, listed, notSound⟩
    · simp at dangling
    · simp only [List.mem_singleton, Option.some.injEq] at listed
      subst listed
      exact notSound sound
  · intro accepted other reaches
    exact answers.known.reaches (done accepted) reaches

theorem Session.extends {before after : V → Mark} {calls : List V} {answers : List Bool}
    {events : List (Event V)} (session : Session graph before calls answers after events) :
    Extends before after := by
  induction session with
  | nil => exact .refl _
  | cons visit _ inductionHypothesis => exact visit.extends.trans inductionHypothesis

/-- Every answer of a session is exact. -/
theorem Session.answers {before after : V → Mark} {calls : List V} {answers : List Bool}
    {events : List (Event V)} (session : Session graph before calls answers after events)
    (settled : Settled graph before) :
    List.Forall₂ (fun vertex ok => ok = true ↔ graph.Sound vertex) calls answers := by
  induction session with
  | nil => exact .nil
  | cons visit _ inductionHypothesis =>
      exact .cons (visit.single settled).1 (inductionHypothesis (visit.settled settled))

/-- What a sound vertex of a session reaches is done at its end. -/
theorem Session.done {before after : V → Mark} {calls : List V} {answers : List Bool}
    {events : List (Event V)} (session : Session graph before calls answers after events)
    (settled : Settled graph before) {vertex other : V} (called : vertex ∈ calls)
    (sound : graph.Sound vertex) (reaches : ReflTransGen graph.Edge vertex other) :
    after other = .done := by
  induction session with
  | nil => simp at called
  | cons visit others inductionHypothesis =>
      rcases List.mem_cons.mp called with rfl | inRest
      · obtain ⟨exact_, done⟩ := visit.single settled
        have reached := done (exact_.mpr sound) other reaches
        rw [others.extends.kept other (by simp [reached]), reached]
      · exact inductionHypothesis (visit.settled settled) inRest

/-- No event occurs twice in a session. -/
theorem Session.once {before after : V → Mark} {calls : List V} {answers : List Bool}
    {events : List (Event V)} (session : Session graph before calls answers after events) :
    events.Nodup ∧ ∀ event ∈ events, before event.vertex = .pending := by
  induction session with
  | nil => simp
  | cons visit others inductionHypothesis =>
      obtain ⟨firstNodup, firstNew⟩ := visit.once
      obtain ⟨restNodup, restNew⟩ := inductionHypothesis
      constructor
      · refine firstNodup.append restNodup ?_
        intro event first rest
        exact (firstNew event first).2 (restNew event rest)
      · intro event listed
        rcases List.mem_append.mp listed with first | rest
        · exact (firstNew event first).1
        · exact visit.extends.pending _ (restNew event rest)

/-- The events of a session come in order. -/
theorem Session.ordered {before after : V → Mark} {calls : List V} {answers : List Bool}
    {events : List (Event V)} (session : Session graph before calls answers after events)
    (settled : Settled graph before) {past : List (Event V)}
    (recorded : Recorded before past) : Ordered graph past events := by
  induction session generalizing past with
  | nil => trivial
  | cons visit _ inductionHypothesis =>
      obtain ⟨first, found⟩ := visit.ordered recorded (settled.below _)
      exact ordered_append.mpr
        ⟨first, inductionHypothesis (visit.settled settled) found⟩

end Sulfur.Search
