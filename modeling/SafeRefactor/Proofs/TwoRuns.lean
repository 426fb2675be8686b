import Mathlib.Data.List.Forall2
import SafeRefactor.Proofs.FallThrough

/-!
# Two tracks on the same code

Two tracks that start from different assigned sets take the same steps on the same code,
since their course does not depend on what is assigned.  So a relation between two tracks
that the single steps keep is kept by all of the code.  Only the end of a `try` asks for
more: what its `finally` adds is told by the set before the `try`.
-/

namespace SafeRefactor

/-- A relation between two tracks is kept by the single steps, their assigned sets being related
by `sets`. -/
structure Coupled (sets : SymbolSet → SymbolSet → Prop) (tracks : Track → Track → Prop) :
    Prop where
  assigned : ∀ {lower upper}, tracks lower upper → sets lower.assigned upper.assigned
  within : ∀ {lower upper smaller larger}, tracks lower upper → sets smaller larger →
    tracks (lower.within smaller) (upper.within larger)
  read : ∀ {lower upper} symbol, tracks lower upper → tracks (lower.read symbol) (upper.read symbol)
  write : ∀ {lower upper} symbol, tracks lower upper →
    tracks (lower.write symbol) (upper.write symbol)
  unassign : ∀ {lower upper} symbol, tracks lower upper →
    tracks (lower.unassign symbol) (upper.unassign symbol)
  inter : ∀ {smaller larger left right}, sets smaller larger → sets left right →
    sets (smaller.inter left) (larger.inter right)

/-- A step takes related tracks to related tracks. -/
def Respects (tracks : Track → Track → Prop) (step : Track → Track) : Prop :=
  ∀ {lower upper}, tracks lower upper → tracks (step lower) (step upper)

namespace Track

/-- Follows a `try` up to its `finally`. -/
def protect (frame : Frame) (children : List Node) (track : Track) : Outcome :=
  let main := (track.executeRole frame .body children).andThen (executeRole frame .orelse children)
  let (handled, ends) := main.track.executeHandlers frame track.assigned children
  handled.joinEnds track.assigned (main.ends ++ ends)

/-- Follows the `finally` of a `try`, from the set before the `try`. -/
def conclude (frame : Frame) (children : List Node) (track : Track) : Outcome :=
  ((track.protect frame children).track.within track.assigned).executeRole frame .finalbody children

/-- The assigned set after a `try`: what its `finally` adds to the set before the `try` is added to
the set at the end of the rest. -/
def settle (frame : Frame) (children : List Node) (track : Track) : SymbolSet :=
  (track.protect frame children).track.assigned.union
    ((track.conclude frame children).track.assigned.diff track.assigned)

theorem execute_try {frame : Frame} {isGroup : Bool} {info : Info} {children : List Node}
    {track : Track} :
    track.execute frame (.mk (.tryStmt isGroup) info children) =
      ⟨(track.conclude frame children).track.within (track.settle frame children),
        (track.conclude frame children).falls && (track.protect frame children).falls⟩ :=
  rfl

end Track

/-- Where the sets at the end of what a `try` protects are related, and those at the end of its
`finally`, so are the sets after the `try`. -/
def Frame.Merges (frame : Frame) (sets : SymbolSet → SymbolSet → Prop)
    (tracks : Track → Track → Prop) (node : Node) : Prop :=
  node.form.isTry = true → ∀ {lower upper : Track}, tracks lower upper →
    sets (lower.protect frame node.children).track.assigned
      (upper.protect frame node.children).track.assigned →
    sets (lower.conclude frame node.children).track.assigned
      (upper.conclude frame node.children).track.assigned →
    sets (lower.settle frame node.children) (upper.settle frame node.children)

namespace Respects

variable {tracks : Track → Track → Prop} {frame : Frame}

theorem foldl {α : Type} {step : Track → α → Track} {items : List α}
    (each : ∀ item ∈ items, Respects tracks (fun track => step track item)) :
    Respects tracks (fun track => items.foldl step track) := by
  intro lower upper related
  induction items generalizing lower upper with
  | nil => exact related
  | cons item items induction =>
      rw [List.forall_mem_cons] at each
      exact induction each.2 (each.1 related)

theorem evaluateAll {items : List Node}
    (each : ∀ item ∈ items, Respects tracks (fun track => track.evaluate frame item)) :
    Respects tracks (fun track => track.evaluateAll frame items) := by
  simp only [Track.evaluateAll_eq_foldl]
  exact foldl each

theorem evaluateRole (role : Role) {items : List Node}
    (each : ∀ item ∈ items, Respects tracks (fun track => track.evaluate frame item)) :
    Respects tracks (fun track => track.evaluateRole frame role items) := by
  simp only [Track.evaluateRole_eq_foldl]
  exact foldl fun item member => each item (List.mem_of_mem_filter member)

theorem evaluateParts (role : Role) (parts : List Role) {items : List Node}
    (each : ∀ item ∈ items, ∀ part ∈ item.children,
      Respects tracks (fun track => track.evaluate frame part)) :
    Respects tracks (fun track => track.evaluateParts frame role parts items) := by
  apply foldl
  intro item member
  apply foldl
  intro part _
  exact evaluateRole part (each item (List.mem_of_mem_filter member))

end Respects

namespace Coupled

variable {sets : SymbolSet → SymbolSet → Prop} {tracks : Track → Track → Prop}
  {lower upper : Track}

section Expressions

variable (coupled : Coupled sets tracks) (frame : Frame)

include coupled

theorem onCopy {step : Track → Track} (respects : Respects tracks step) :
    Respects tracks (fun track => (step track).within track.assigned) :=
  fun related => coupled.within (respects related) (coupled.assigned related)

theorem read? (symbol : Option Symbol) : Respects tracks (fun track => track.read? symbol) := by
  intro lower upper related
  cases symbol with
  | none => exact related
  | some symbol => exact coupled.read symbol related

theorem write? (symbol : Option Symbol) : Respects tracks (fun track => track.write? symbol) := by
  intro lower upper related
  cases symbol with
  | none => exact related
  | some symbol => exact coupled.write symbol related

theorem touch (node : Node) (context : Context) :
    Respects tracks (fun track => track.touch frame node context) := by
  intro lower upper related
  unfold Track.touch
  cases frame.occurrence node with
  | none => exact related
  | some symbol =>
      cases context with
      | load => exact coupled.read symbol related
      | store => exact coupled.write symbol related
      | del => exact coupled.unassign symbol (coupled.read symbol related)

theorem bind (node : Node) (name : String) :
    Respects tracks (fun track => track.bind frame node name) :=
  coupled.write? (frame.capture node name)

/-- Following an expression keeps the relation. -/
theorem evaluate (node : Node) : Respects tracks (fun track => track.evaluate frame node) := by
  induction node using Node.strongInduction with
  | step form info children induction =>
      have each : ∀ child ∈ children, Respects tracks (fun track => track.evaluate frame child) :=
        fun child isChild => induction child isChild child (Node.self_mem_nodes child)
      have parts : ∀ child ∈ children, ∀ part ∈ child.children,
          Respects tracks (fun track => track.evaluate frame part) :=
        fun child isChild part isPart =>
          induction child isChild part (Node.child_mem_nodes isPart)
      intro lower upper related
      cases form with
      | name id context => exact coupled.touch frame _ context related
      | namedExpr => exact Respects.evaluateRole _ each (Respects.evaluateRole _ each related)
      | lambda =>
          have defined :=
            Respects.evaluateParts .parameters [.default, .keywordDefault] parts related
          simp only [Track.evaluate, Track.evaluateDefaults_eq_parts]
          exact coupled.onCopy (Respects.evaluateRole _ each) defined
      | comprehension kind =>
          have collected :=
            Respects.evaluateParts .clause [.iterable, .target, .condition] parts related
          have keyed := Respects.evaluateRole .key each collected
          simp only [Track.evaluate, Track.evaluateClauses_eq_parts]
          exact Respects.evaluateRole _ each (Respects.evaluateRole _ each keyed)
      | _ => exact Respects.evaluateAll each related

theorem evaluateAll (items : List Node) :
    Respects tracks (fun track => track.evaluateAll frame items) :=
  Respects.evaluateAll fun item _ => coupled.evaluate frame item

theorem evaluateRole (role : Role) (items : List Node) :
    Respects tracks (fun track => track.evaluateRole frame role items) :=
  Respects.evaluateRole role fun item _ => coupled.evaluate frame item

theorem evaluateDefaults (items : List Node) :
    Respects tracks (fun track => track.evaluateDefaults frame items) := by
  simp only [Track.evaluateDefaults_eq_parts]
  exact Respects.evaluateParts _ _ fun _ _ part _ => coupled.evaluate frame part

end Expressions

section Patterns

variable (coupled : Coupled sets tracks) (frame : Frame)

include coupled

theorem matchNode (node : Node) : Respects tracks (fun track => track.matchNode frame node) := by
  intro lower upper related
  unfold Track.matchNode
  split
  · exact coupled.evaluateRole frame _ _ related
  · exact coupled.evaluateRole frame _ _ related
  · split
    · exact related
    · exact coupled.bind frame _ _ related
  · split
    · exact related
    · exact coupled.bind frame _ _ related
  · split
    · exact related
    · exact coupled.bind frame _ _ related
  · exact related

theorem matchPatterns (parts : List Node) :
    Respects tracks (fun track => track.matchPatterns frame parts) := by
  apply Respects.foldl
  intro pattern _
  apply Respects.foldl
  intro node _
  exact coupled.matchNode frame node

theorem bindHandler (handler : Node) :
    Respects tracks (fun track => track.bindHandler frame handler) := by
  intro lower upper related
  unfold Track.bindHandler
  split
  · split
    · exact related
    · exact coupled.bind frame _ _ related
  · exact related

theorem bindImports (items : List Node) :
    Respects tracks (fun track => track.bindImports frame items) := by
  apply Respects.foldl
  intro item _ lower upper related
  split
  · split
    · exact related
    · exact coupled.bind frame _ _ related
  · exact related

theorem augment (children : List Node) :
    Respects tracks (fun track => track.augment frame children) := by
  intro lower upper related
  unfold Track.augment
  split
  · split
    · exact coupled.write? _ (coupled.evaluateRole frame _ _ (coupled.read? _ related))
    · exact coupled.evaluateRole frame _ _ (coupled.evaluateRole frame _ _ related)
  · exact coupled.evaluateRole frame _ _ related

theorem annotate (children : List Node) :
    Respects tracks (fun track => track.annotate frame children) := by
  intro lower upper related
  unfold Track.annotate
  split
  · exact coupled.evaluateRole frame _ _ (coupled.evaluateRole frame _ _ related)
  · split
    · exact related
    · exact coupled.evaluateRole frame _ _ related

end Patterns

section Alternatives

variable (coupled : Coupled sets tracks)

include coupled

theorem interAll {first second : SymbolSet} {smaller larger : List SymbolSet}
    (firsts : sets first second) (rest : List.Forall₂ sets smaller larger) :
    sets (SymbolSet.interAll (first :: smaller)) (SymbolSet.interAll (second :: larger)) := by
  induction rest generalizing first second with
  | nil => exact firsts
  | cons seconds _ induction => exact induction (coupled.inter firsts seconds)

theorem ends {one other : Outcome} (related : tracks one.track other.track)
    (same : one.falls = other.falls) : List.Forall₂ sets one.ends other.ends := by
  unfold Outcome.ends
  rw [same]
  split
  · exact .cons (coupled.assigned related) .nil
  · exact .nil

theorem joinEnds {before after : SymbolSet} {smaller larger : List SymbolSet}
    (related : tracks lower upper) (starts : sets before after)
    (ends : List.Forall₂ sets smaller larger) :
    tracks (lower.joinEnds before smaller).track (upper.joinEnds after larger).track := by
  unfold Track.joinEnds
  cases ends with
  | nil => exact coupled.within related starts
  | cons first rest => exact coupled.within related (coupled.interAll first rest)

theorem alternatives {visit : Node → Track → Outcome} {items : List Node} {before after : SymbolSet}
    (starts : sets before after)
    (each : ∀ item ∈ items, Respects tracks (fun track => (visit item track).track))
    (same : ∀ item one other, (visit item one).falls = (visit item other).falls)
    (related : tracks lower upper) :
    tracks (Track.alternatives before visit items lower).1
        (Track.alternatives after visit items upper).1 ∧
      List.Forall₂ sets (Track.alternatives before visit items lower).2
        (Track.alternatives after visit items upper).2 := by
  induction items generalizing lower upper with
  | nil => exact ⟨related, .nil⟩
  | cons item items induction =>
      rw [List.forall_mem_cons] at each
      have own := each.1 (coupled.within related starts)
      obtain ⟨later, ends⟩ := induction each.2 own
      exact ⟨later, List.rel_append (coupled.ends own (same item _ _)) ends⟩

end Alternatives

def RespectsStatement (frame : Frame) (tracks : Track → Track → Prop) (node : Node) : Prop :=
  Respects tracks (fun track => (track.execute frame node).track)

private theorem executeRole_of_each {frame : Frame} {role : Role} {items : List Node}
    (each : ∀ item ∈ items, item.role = role → RespectsStatement frame tracks item) :
    Respects tracks (fun track => (track.executeRole frame role items).track) := by
  intro lower upper related
  induction items generalizing lower upper with
  | nil => exact related
  | cons item items induction =>
      rw [List.forall_mem_cons] at each
      simp only [Track.executeRole, Track.falls_execute]
      split
      · next plays =>
          have own := each.1 plays related
          split
          · exact induction each.2 own
          · exact own
      · exact induction each.2 related

section Statements

variable (coupled : Coupled sets tracks) {frame : Frame} {children : List Node}

include coupled

/-- Alternatives that end with a body, each entered in its own way. -/
theorem branches {enter : Node → Track → Track} {before after : SymbolSet}
    (enters : ∀ branch, Respects tracks (enter branch)) (starts : sets before after)
    (bodies : ∀ branch ∈ children, ∀ item ∈ branch.children, item.role = .body →
      RespectsStatement frame tracks item)
    (related : tracks lower upper) :
    let visit (branch : Node) (track : Track) :=
      (enter branch track).executeRole frame .body branch.children
    tracks (Track.alternatives before visit children lower).1
        (Track.alternatives after visit children upper).1 ∧
      List.Forall₂ sets (Track.alternatives before visit children lower).2
        (Track.alternatives after visit children upper).2 := by
  apply coupled.alternatives starts _ _ related
  · intro branch isBranch lower upper related
    exact executeRole_of_each (bodies branch isBranch) (enters branch related)
  · intro branch one other
    rw [Track.falls_executeRole, Track.falls_executeRole]

theorem protect
    (block : ∀ role, Respects tracks (fun track => (track.executeRole frame role children).track))
    (bodies : ∀ handler ∈ children, ∀ item ∈ handler.children, item.role = .body →
      RespectsStatement frame tracks item) :
    Respects tracks (fun track => (track.protect frame children).track) := by
  intro lower upper related
  have same (one other : Track) :
      ((one.executeRole frame .body children).andThen
        (Track.executeRole frame .orelse children)).falls =
      ((other.executeRole frame .body children).andThen
        (Track.executeRole frame .orelse children)).falls := by
    simp only [Outcome.falls_andThen, Track.falls_executeRole]
  have main : tracks
      ((lower.executeRole frame .body children).andThen
        (Track.executeRole frame .orelse children)).track
      ((upper.executeRole frame .body children).andThen
        (Track.executeRole frame .orelse children)).track := by
    have tried := block .body related
    unfold Outcome.andThen
    rw [Track.falls_executeRole, Track.falls_executeRole]
    split
    · exact block .orelse tried
    · exact tried
  have starts := coupled.assigned related
  obtain ⟨handled, ends⟩ := coupled.branches
    (fun handler _ _ caught => coupled.bindHandler frame handler
      (coupled.evaluateRole frame .caught handler.children caught))
    starts (fun handler member => bodies handler (List.mem_of_mem_filter member)) main
  simp only [Track.protect, Track.executeHandlers_eq]
  exact coupled.joinEnds handled starts
    (List.rel_append (coupled.ends main (same lower upper)) ends)

/-- Following a statement keeps the relation if the ends of the `try` statements in it do. -/
theorem execute {node : Node} (tries : ∀ inner ∈ node.nodes, frame.Merges sets tracks inner) :
    RespectsStatement frame tracks node := by
  induction node using Node.strongInduction with
  | step form info children induction =>
      have block (role : Role) :
          Respects tracks (fun track => (track.executeRole frame role children).track) := by
        apply executeRole_of_each
        intro child isChild _
        apply induction child isChild child (Node.self_mem_nodes child)
        exact fun inner inside => tries inner (Node.nodes_of_child isChild inside)
      have bodies : ∀ part ∈ children, ∀ item ∈ part.children, item.role = .body →
          RespectsStatement frame tracks item := by
        intro part isPart item isItem _
        apply induction part isPart item (Node.child_mem_nodes isItem)
        intro inner inside
        have inPart := Node.nodes_of_child isItem inside
        exact tries inner (Node.nodes_of_child isPart inPart)
      -- Where code is followed on a copy, the sets from before it are related; where branches meet,
      -- the sets at their ends are, and both tracks have equally many of them.
      intro lower upper related
      cases form with
      | functionDef isAsync name returns =>
          have decorated := coupled.evaluateRole frame .decorator children related
          have defined := coupled.evaluateDefaults frame children decorated
          exact coupled.bind frame _ _ (coupled.onCopy (block .body) defined)
      | classDef name =>
          have decorated := coupled.evaluateRole frame .decorator children related
          have based := coupled.evaluateRole frame .base children decorated
          have defined := coupled.evaluateRole frame .keyword children based
          exact coupled.bind frame _ _ (coupled.onCopy (block .body) defined)
      | assign => exact coupled.evaluateRole frame _ _ (coupled.evaluateRole frame _ _ related)
      | annAssign hint => exact coupled.annotate frame _ related
      | augAssign => exact coupled.augment frame _ related
      | returnStmt => exact coupled.evaluateAll frame _ related
      | raiseStmt => exact coupled.evaluateAll frame _ related
      | breakStmt => exact related
      | continueStmt => exact related
      | ifStmt =>
          have tested := coupled.evaluateRole frame .test children related
          have starts := coupled.assigned tested
          have first := block .body tested
          have second := block .orelse (coupled.within first starts)
          refine coupled.joinEnds second starts (List.rel_append (coupled.ends first ?_)
            (coupled.ends second ?_))
          · rw [Track.falls_executeRole, Track.falls_executeRole]
          · rw [Track.falls_executeRole, Track.falls_executeRole]
      | forLoop isAsync =>
          have started := coupled.evaluateRole frame .iterable children related
          have round := block .body (coupled.evaluateRole frame .target children started)
          exact block .orelse (coupled.within round (coupled.assigned started))
      | whileLoop =>
          have tested := coupled.evaluateRole frame .test children related
          exact block .orelse (coupled.onCopy (block .body) tested)
      | withStmt isAsync => exact block .body (coupled.evaluateRole frame _ _ related)
      | tryStmt isGroup =>
          have joined := coupled.protect block bodies related
          have starts := coupled.assigned related
          have final := block .finalbody (coupled.within joined starts)
          simp only [Track.execute_try]
          -- The set that is put in place at the end is not one that a track has had.
          apply coupled.within final
          exact tries _ (Node.self_mem_nodes _) rfl related (coupled.assigned joined)
            (coupled.assigned final)
      | matchStmt =>
          have started := coupled.evaluateRole frame .subject children related
          have starts := coupled.assigned started
          obtain ⟨matched, ends⟩ := coupled.branches
            (fun arm _ _ related => coupled.evaluateRole frame .guard arm.children
              (coupled.matchPatterns frame arm.children related))
            starts (fun arm member => bodies arm (List.mem_of_mem_filter member)) started
          simp only [Track.execute, Track.executeArms_eq]
          exact coupled.within matched (coupled.interAll starts ends)
      | importStmt => exact coupled.bindImports frame _ related
      | importFrom module level => exact coupled.bindImports frame _ related
      | _ => exact coupled.evaluateAll frame _ related

/-- Following statements keeps the relation if the ends of the `try` statements in them do. -/
theorem executeRole {role : Role} {items : List Node}
    (tries : ∀ item ∈ items, item.role = role → ∀ inner ∈ item.nodes,
      frame.Merges sets tracks inner) :
    Respects tracks (fun track => (track.executeRole frame role items).track) :=
  executeRole_of_each fun item isItem plays => coupled.execute (tries item isItem plays)

end Statements

end Coupled

end SafeRefactor
