import SafeRefactor.Proofs.Tracking

/-!
# Where recorded symbols come from

Following code records a symbol as read or written only where some node of the code tells
of it: a name occurrence that means it or a construct that binds it.  A symbol is exposed
only when it is read.
-/

namespace SafeRefactor

/-- The node tells the frame of the symbol. -/
inductive Frame.Tells (frame : Frame) (node : Node) (symbol : Symbol) : Prop where
  | occurs : node.identifier?.isSome → frame.occurrence node = some symbol →
      Tells frame node symbol
  | binds {name : String} : node.form.boundName? = some name →
      frame.capture node name = some symbol → Tells frame node symbol

/-- Every symbol that a node of the tree tells of is known. -/
def Frame.Knows (frame : Frame) (known : Symbol → Prop) (root : Node) : Prop :=
  ∀ node ∈ root.nodes, ∀ symbol, frame.Tells node symbol → known symbol

/-- What the track has recorded is known, and what is exposed was read. -/
structure Track.Grounded (known : Symbol → Prop) (track : Track) : Prop where
  reads : ∀ symbol ∈ track.reads, known symbol
  writes : ∀ symbol ∈ track.writes, known symbol
  exposed : ∀ symbol ∈ track.exposed, symbol ∈ track.reads

namespace Frame.Knows

variable {frame : Frame} {known : Symbol → Prop} {root node : Node}

theorem of_mem (knows : frame.Knows known root) (inside : node ∈ root.nodes) :
    frame.Knows known node :=
  fun inner member => knows inner (Node.nodes_trans member inside)

theorem occurrence (knows : frame.Knows known root) (named : root.identifier?.isSome)
    {symbol : Symbol} (found : frame.occurrence root = some symbol) : known symbol :=
  knows root (Node.self_mem_nodes root) symbol (.occurs named found)

theorem capture (knows : frame.Knows known root) {name : String}
    (bound : root.form.boundName? = some name) {symbol : Symbol}
    (found : frame.capture root name = some symbol) : known symbol :=
  knows root (Node.self_mem_nodes root) symbol (.binds bound found)

end Frame.Knows

namespace Track

variable {frame : Frame} {known : Symbol → Prop} {track : Track}

namespace Grounded

theorem empty : Grounded known {} where
  reads := nofun
  writes := nofun
  exposed := nofun

theorem within (grounded : track.Grounded known) (assigned : SymbolSet) :
    (track.within assigned).Grounded known :=
  ⟨grounded.reads, grounded.writes, grounded.exposed⟩

theorem read {symbol : Symbol} (grounded : track.Grounded known) (isKnown : known symbol) :
    (track.read symbol).Grounded known where
  reads := by
    intro other member
    rcases SymbolSet.mem_insert.mp member with rfl | earlier
    · exact isKnown
    · exact grounded.reads other earlier
  writes := grounded.writes
  exposed := by
    intro other member
    apply SymbolSet.mem_insert.mpr
    rw [Track.read] at member
    split at member
    · exact Or.inr (grounded.exposed other member)
    · exact (SymbolSet.mem_insert.mp member).imp_right (grounded.exposed other)

theorem write {symbol : Symbol} (grounded : track.Grounded known) (isKnown : known symbol) :
    (track.write symbol).Grounded known where
  reads := grounded.reads
  writes := by
    intro other member
    rcases SymbolSet.mem_insert.mp member with rfl | earlier
    · exact isKnown
    · exact grounded.writes other earlier
  exposed := grounded.exposed

theorem read? {symbol : Option Symbol} (grounded : track.Grounded known)
    (isKnown : ∀ found, symbol = some found → known found) :
    (track.read? symbol).Grounded known := by
  cases symbol with
  | none => exact grounded
  | some found => exact grounded.read (isKnown found rfl)

theorem write? {symbol : Option Symbol} (grounded : track.Grounded known)
    (isKnown : ∀ found, symbol = some found → known found) :
    (track.write? symbol).Grounded known := by
  cases symbol with
  | none => exact grounded
  | some found => exact grounded.write (isKnown found rfl)

theorem touch {node : Node} {context : Context} (grounded : track.Grounded known)
    (isKnown : ∀ found, frame.occurrence node = some found → known found) :
    (track.touch frame node context).Grounded known := by
  unfold Track.touch
  split
  · exact grounded
  · next found => exact grounded.read (isKnown _ found)
  · next found => exact grounded.write (isKnown _ found)
  · next found => exact (grounded.read (isKnown _ found)).within _

theorem bind {node : Node} {name : String} (grounded : track.Grounded known)
    (knows : frame.Knows known node) (bound : node.form.boundName? = some name) :
    (track.bind frame node name).Grounded known :=
  grounded.write? fun _ found => knows.capture bound found

end Grounded

/-- A step records only what is known. -/
def Grounds (known : Symbol → Prop) (step : Track → Track) : Prop :=
  ∀ track, track.Grounded known → (step track).Grounded known

def GroundsNode (frame : Frame) (known : Symbol → Prop) (node : Node) : Prop :=
  Grounds known (fun track => track.evaluate frame node)

def GroundsStatement (frame : Frame) (known : Symbol → Prop) (node : Node) : Prop :=
  Grounds known (fun track => (track.execute frame node).track)

theorem Grounded.foldl {α : Type} {step : Track → α → Track} {items : List α}
    (grounded : track.Grounded known)
    (each : ∀ item ∈ items, Grounds known (fun track => step track item)) :
    (items.foldl step track).Grounded known := by
  induction items generalizing track with
  | nil => exact grounded
  | cons item items induction =>
      apply induction (each item List.mem_cons_self _ grounded)
      exact fun other member => each other (List.mem_cons_of_mem _ member)

theorem Grounded.evaluateAll {items : List Node} (grounded : track.Grounded known)
    (each : ∀ item ∈ items, GroundsNode frame known item) :
    (track.evaluateAll frame items).Grounded known := by
  rw [Track.evaluateAll_eq_foldl]
  exact grounded.foldl each

theorem Grounded.evaluateRole {items : List Node} (grounded : track.Grounded known) (role : Role)
    (each : ∀ item ∈ items, GroundsNode frame known item) :
    (track.evaluateRole frame role items).Grounded known := by
  rw [Track.evaluateRole_eq_foldl]
  exact grounded.foldl fun item member => each item (List.mem_of_mem_filter member)

theorem Grounded.evaluateParts {items : List Node} (grounded : track.Grounded known) (role : Role)
    (parts : List Role)
    (each : ∀ item ∈ items, ∀ part ∈ item.children, GroundsNode frame known part) :
    (track.evaluateParts frame role parts items).Grounded known := by
  apply grounded.foldl
  intro item member track grounded
  refine Grounded.foldl grounded ?_
  intro part _ track grounded
  exact grounded.evaluateRole part (each item (List.mem_of_mem_filter member))

theorem groundsNode_of_knows {node : Node} (knows : frame.Knows known node) :
    GroundsNode frame known node := by
  induction node using Node.strongInduction with
  | step form info children induction =>
      intro track grounded
      have each : ∀ child ∈ children, GroundsNode frame known child := fun child isChild =>
        induction child isChild child (Node.self_mem_nodes child)
          (knows.of_mem (Node.child_mem_nodes isChild))
      have parts : ∀ child ∈ children, ∀ part ∈ child.children, GroundsNode frame known part :=
        fun child isChild part isPart =>
          induction child isChild part (Node.child_mem_nodes isPart)
            (knows.of_mem (Node.nodes_of_child isChild (Node.child_mem_nodes isPart)))
      cases form with
      | name id context =>
          simp only [Track.evaluate]
          exact grounded.touch fun _ found => knows.occurrence rfl found
      | namedExpr =>
          simp only [Track.evaluate]
          exact (grounded.evaluateRole _ each).evaluateRole _ each
      | lambda =>
          simp only [Track.evaluate, Track.evaluateDefaults_eq_parts]
          exact ((grounded.evaluateParts _ _ parts).evaluateRole _ each).within _
      | comprehension kind =>
          have collected :=
            grounded.evaluateParts .clause [.iterable, .target, .condition] parts
          simp only [Track.evaluate, Track.evaluateClauses_eq_parts]
          exact ((collected.evaluateRole _ each).evaluateRole _ each).evaluateRole _ each
      | _ =>
          simp only [Track.evaluate]
          exact grounded.evaluateAll each

private theorem grounds_children {root : Node} (knows : frame.Knows known root) :
    (∀ child ∈ root.children, GroundsNode frame known child) ∧
      ∀ child ∈ root.children, ∀ part ∈ child.children, GroundsNode frame known part := by
  constructor
  · intro child isChild
    exact groundsNode_of_knows (knows.of_mem (Node.child_mem_nodes isChild))
  · intro child isChild part isPart
    apply groundsNode_of_knows
    exact knows.of_mem (Node.nodes_of_child isChild (Node.child_mem_nodes isPart))

theorem Grounded.matchNode {node : Node} (grounded : track.Grounded known)
    (knows : frame.Knows known node) : (track.matchNode frame node).Grounded known := by
  have each := (grounds_children knows).1
  unfold Track.matchNode
  split
  · exact grounded.evaluateRole _ each
  · exact grounded.evaluateRole _ each
  · split
    · exact grounded
    · next form empty => exact grounded.bind knows (by simp [form, Form.boundName?, empty])
  · split
    · exact grounded
    · next form empty => exact grounded.bind knows (by simp [form, Form.boundName?, empty])
  · split
    · exact grounded
    · next form empty => exact grounded.bind knows (by simp [form, Form.boundName?, empty])
  · exact grounded

theorem Grounded.matchPatterns {root : Node} (grounded : track.Grounded known)
    (knows : frame.Knows known root) :
    (track.matchPatterns frame root.children).Grounded known := by
  apply grounded.foldl
  intro pattern isPattern track grounded
  have isChild := (List.mem_filter.mp isPattern).1
  apply grounded.foldl
  intro node member track grounded
  apply grounded.matchNode
  exact knows.of_mem (Node.nodes_of_child isChild (Node.mem_walk.mp member))

theorem Grounded.bindHandler {handler : Node} (grounded : track.Grounded known)
    (knows : frame.Knows known handler) : (track.bindHandler frame handler).Grounded known := by
  unfold Track.bindHandler
  split
  · split
    · exact grounded
    · next form empty => exact grounded.bind knows (by simp [form, Form.boundName?, empty])
  · exact grounded

theorem Grounded.bindImports {root : Node} (grounded : track.Grounded known)
    (knows : frame.Knows known root) : (track.bindImports frame root.children).Grounded known := by
  apply grounded.foldl
  intro item isChild track grounded
  split
  · split
    · exact grounded
    · next form star =>
        apply grounded.bind (knows.of_mem (Node.child_mem_nodes isChild))
        simp [form, Form.boundName?, star]
  · exact grounded

theorem Grounded.augment {root : Node} (grounded : track.Grounded known)
    (knows : frame.Knows known root) : (track.augment frame root.children).Grounded known := by
  have each := (grounds_children knows).1
  unfold Track.augment
  split
  · next target found =>
      split
      · next form =>
          have inside := Node.child_mem_nodes (List.mem_of_find?_eq_some found)
          have isKnown : ∀ symbol, frame.occurrence target = some symbol → known symbol :=
            fun _ => (knows.of_mem inside).occurrence (by rw [Node.identifier?, form]; rfl)
          exact ((grounded.read? isKnown).evaluateRole _ each).write? isKnown
      · exact (grounded.evaluateRole _ each).evaluateRole _ each
  · exact grounded.evaluateRole _ each

theorem Grounded.annotate {root : Node} (grounded : track.Grounded known)
    (knows : frame.Knows known root) : (track.annotate frame root.children).Grounded known := by
  have each := (grounds_children knows).1
  unfold Track.annotate
  split
  · exact (grounded.evaluateRole _ each).evaluateRole _ each
  · split
    · exact grounded
    · exact grounded.evaluateRole _ each

theorem Grounded.joinEnds {before : SymbolSet} {ends : List SymbolSet}
    (grounded : track.Grounded known) : (track.joinEnds before ends).track.Grounded known := by
  unfold Track.joinEnds
  split
  · exact grounded.within _
  · exact grounded.within _

theorem Grounded.alternatives {before : SymbolSet} {visit : Node → Track → Outcome}
    {items : List Node} (grounded : track.Grounded known)
    (each : ∀ item ∈ items, Grounds known (fun track => (visit item track).track)) :
    (Track.alternatives before visit items track).1.Grounded known := by
  induction items generalizing track with
  | nil => exact grounded
  | cons item items induction =>
      apply induction (each item List.mem_cons_self _ (grounded.within before))
      exact fun other member => each other (List.mem_cons_of_mem _ member)

theorem Grounded.executeRole {items : List Node} (grounded : track.Grounded known) (role : Role)
    (each : ∀ item ∈ items, GroundsStatement frame known item) :
    (track.executeRole frame role items).track.Grounded known := by
  induction items generalizing track with
  | nil => exact grounded
  | cons item items induction =>
      have rest := fun other member => each other (List.mem_cons_of_mem item member)
      have own := each item List.mem_cons_self track grounded
      simp only [Track.executeRole]
      split
      · split
        · exact induction own rest
        · exact own
      · exact induction grounded rest

theorem groundsStatement_of_knows {node : Node} (knows : frame.Knows known node) :
    GroundsStatement frame known node := by
  induction node using Node.strongInduction with
  | step form info children induction =>
      intro track grounded
      obtain ⟨each, parts⟩ := grounds_children knows
      have block : ∀ child ∈ children, GroundsStatement frame known child := fun child isChild =>
        induction child isChild child (Node.self_mem_nodes child)
          (knows.of_mem (Node.child_mem_nodes isChild))
      have inner : ∀ part ∈ children, ∀ child ∈ part.children, GroundsStatement frame known child :=
        fun part isPart child isChild =>
          induction part isPart child (Node.child_mem_nodes isChild)
            (knows.of_mem (Node.nodes_of_child isPart (Node.child_mem_nodes isChild)))
      cases form with
      | functionDef isAsync name returns =>
          have decorated := grounded.evaluateRole .decorator each
          have defined := decorated.evaluateParts .parameters [.default, .keywordDefault] parts
          simp only [Track.execute, Track.evaluateDefaults_eq_parts]
          exact ((defined.executeRole _ block).within _).bind knows rfl
      | classDef name =>
          have decorated := (grounded.evaluateRole .decorator each).evaluateRole .base each
          have defined := decorated.evaluateRole .keyword each
          simp only [Track.execute]
          exact ((defined.executeRole _ block).within _).bind knows rfl
      | assign =>
          simp only [Track.execute]
          exact (grounded.evaluateRole _ each).evaluateRole _ each
      | annAssign hint =>
          simp only [Track.execute]
          exact grounded.annotate knows
      | augAssign =>
          simp only [Track.execute]
          exact grounded.augment knows
      | returnStmt | raiseStmt =>
          simp only [Track.execute]
          exact grounded.evaluateAll each
      | breakStmt | continueStmt =>
          simp only [Track.execute]
          exact grounded
      | ifStmt =>
          have first := (grounded.evaluateRole .test each).executeRole .body block
          simp only [Track.execute]
          exact ((first.within _).executeRole _ block).joinEnds
      | forLoop isAsync =>
          have started := grounded.evaluateRole .iterable each
          have round := (started.evaluateRole .target each).executeRole .body block
          simp only [Track.execute]
          exact (round.within _).executeRole _ block
      | whileLoop =>
          have round := (grounded.evaluateRole .test each).executeRole .body block
          simp only [Track.execute]
          exact (round.within _).executeRole _ block
      | withStmt isAsync =>
          simp only [Track.execute]
          exact (grounded.evaluateRole _ each).executeRole _ block
      | tryStmt isGroup =>
          have tried := grounded.executeRole .body block
          simp only [Track.execute, executeHandlers_eq]
          apply Grounded.within
          apply Grounded.executeRole _ _ block
          apply Grounded.within
          apply Grounded.joinEnds
          apply Grounded.alternatives
          · split
            · exact tried.executeRole _ block
            · exact tried
          · intro handler isHandler track grounded
            have isChild := (List.mem_filter.mp isHandler).1
            have ownParts := (grounds_children (knows.of_mem (Node.child_mem_nodes isChild))).1
            have caught := grounded.evaluateRole .caught ownParts
            have bound := caught.bindHandler (knows.of_mem (Node.child_mem_nodes isChild))
            exact bound.executeRole _ (inner handler isChild)
      | matchStmt =>
          have started := grounded.evaluateRole .subject each
          simp only [Track.execute, executeArms_eq]
          apply Grounded.within
          apply started.alternatives
          intro arm isArm track grounded
          have isChild := (List.mem_filter.mp isArm).1
          have below := knows.of_mem (Node.child_mem_nodes isChild)
          have matched := grounded.matchPatterns below
          have guarded := matched.evaluateRole .guard (grounds_children below).1
          exact guarded.executeRole _ (inner arm isChild)
      | importStmt | importFrom module level =>
          simp only [Track.execute]
          exact grounded.bindImports knows
      | _ =>
          simp only [Track.execute]
          exact grounded.evaluateAll each

theorem Grounded.follow {nodes : List Node} (grounded : track.Grounded known)
    (knows : ∀ node ∈ nodes, frame.Knows known node) :
    (track.follow frame nodes).Grounded known := by
  apply grounded.foldl
  intro node member track grounded
  simp only
  split
  · exact groundsStatement_of_knows (knows node member) track grounded
  · exact groundsNode_of_knows (knows node member) track grounded

end Track

/-- The node is an occurrence of the name or binds it. -/
def Node.Mentions (node : Node) (name : String) : Prop :=
  node.identifier? = some name ∨ node.form.boundName? = some name

namespace Model

/-- Some node of the run mentions the name and means the symbol by it. -/
def MeansIn (model : Model) (run : List Node) (name : String) (symbol : Symbol) : Prop :=
  ∃ root ∈ run, ∃ node ∈ root.nodes,
    node.Mentions name ∧ model.lookup (model.scopeOf node) name = some symbol

/-- The symbols that are followed through a run. -/
def trackedIn (model : Model) : List Node → SymbolSet
  | [] => []
  | first :: _ => model.trackedSymbols (model.scopeOf first)

section

variable {model : Model} {run : List Node} {symbol : Symbol}

theorem meansIn_of_resolve {root node : Node} (isRoot : root ∈ run) (inside : node ∈ root.nodes)
    (named : node.identifier?.isSome) (resolved : model.resolve node = some symbol) :
    ∃ name, model.MeansIn run name symbol := by
  obtain ⟨name, identifier⟩ := Option.isSome_iff_exists.mp named
  rw [resolve, identifier, Option.getD_some] at resolved
  exact ⟨name, root, isRoot, node, inside, Or.inl identifier, resolved⟩

theorem knows_ofModel (tracked : SymbolSet) {root : Node} (isRoot : root ∈ run) :
    (Frame.ofModel model tracked).Knows
      (fun symbol => symbol ∈ tracked ∧ ∃ name, model.MeansIn run name symbol) root := by
  intro node inside symbol tells
  cases tells with
  | occurs named found =>
      obtain ⟨resolved, isTracked⟩ := Option.filter_eq_some_iff.mp found
      exact ⟨of_decide_eq_true isTracked, meansIn_of_resolve isRoot inside named resolved⟩
  | @binds name bound found =>
      obtain ⟨looked, isTracked⟩ := Option.filter_eq_some_iff.mp found
      exact ⟨of_decide_eq_true isTracked, name, root, isRoot, node, inside, Or.inr bound, looked⟩

theorem grounded_follow (model : Model) (tracked : SymbolSet) (run : List Node) :
    (Track.follow (Frame.ofModel model tracked) run {}).Grounded
      (fun symbol => symbol ∈ tracked ∧ ∃ name, model.MeansIn run name symbol) :=
  Track.Grounded.empty.follow fun _ isRoot => knows_ofModel tracked isRoot

theorem mem_capturedSymbols {tracked : SymbolSet}
    (member : symbol ∈ model.capturedSymbols tracked run) :
    symbol ∈ tracked ∧ ∃ name, model.MeansIn run name symbol := by
  obtain ⟨code, isCode, listed⟩ := List.mem_flatMap.mp (SymbolSet.mem_ofList.mp member)
  obtain ⟨callable, isCallable, ofCallable⟩ := List.mem_flatMap.mp isCode
  obtain ⟨root, isRoot, inside⟩ := List.mem_flatMap.mp isCallable
  obtain ⟨node, isNode, found⟩ := List.mem_filterMap.mp listed
  have isChild : code ∈ callable.children := by
    unfold calledCode at ofCallable
    split at ofCallable
    · exact (Node.mem_field.mp ofCallable).1
    · exact (Node.mem_field.mp ofCallable).1
    · cases ofCallable
  have below : node ∈ root.nodes :=
    Node.nodes_trans (Node.nodes_of_child isChild (Node.mem_walk.mp isNode))
      (Node.mem_walk.mp inside)
  split at found
  · next named =>
      obtain ⟨resolved, isTracked⟩ := Option.filter_eq_some_iff.mp found
      exact ⟨of_decide_eq_true isTracked, meansIn_of_resolve isRoot below named resolved⟩
  · cases found

theorem mem_declaredSymbols {scope : Scope} {tracked : SymbolSet} {inside : List NodeId}
    (member : symbol ∈ model.declaredSymbols scope tracked inside) : symbol ∈ tracked := by
  unfold declaredSymbols at member
  split at member
  · cases member
  · exact (List.mem_filter.mp member).1

theorem mem_written_of_liveOut {tracked written : SymbolSet} {last : Node} {inside : List NodeId}
    (member : symbol ∈ model.liveOut tracked written last inside) : symbol ∈ written := by
  unfold liveOut at member
  split at member
  · cases member
  · exact (List.mem_filter.mp member).1

/-- Whatever the data flow of a run lists is followed, and what it reads, writes or captures is
meant by some node of the run. -/
structure Sourced (model : Model) (run : List Node) (flow : RegionFlow) : Prop where
  read : ∀ symbol ∈ flow.read,
    symbol ∈ model.trackedIn run ∧ ∃ name, model.MeansIn run name symbol
  written : ∀ symbol ∈ flow.written,
    symbol ∈ model.trackedIn run ∧ ∃ name, model.MeansIn run name symbol
  captured : ∀ symbol ∈ flow.captured,
    symbol ∈ model.trackedIn run ∧ ∃ name, model.MeansIn run name symbol
  declaredInside : ∀ symbol ∈ flow.declaredInside, symbol ∈ model.trackedIn run
  liveIn : ∀ symbol ∈ flow.liveIn, symbol ∈ flow.read
  liveOut : ∀ symbol ∈ flow.liveOut, symbol ∈ flow.written
  alwaysAssigned : ∀ symbol ∈ flow.alwaysAssigned, symbol ∈ flow.written

theorem sourced_regionFlow (model : Model) (run : List Node) :
    model.Sourced run (model.regionFlow run) := by
  cases run with
  | nil =>
      constructor
      all_goals exact nofun
  | cons first rest =>
      have grounded := grounded_follow model (model.trackedIn (first :: rest)) (first :: rest)
      constructor
      · exact grounded.reads
      · exact grounded.writes
      · exact fun symbol member => mem_capturedSymbols member
      · exact fun symbol member => mem_declaredSymbols member
      · intro symbol member
        exact grounded.exposed symbol (List.mem_filter.mp member).1
      · exact fun symbol member => mem_written_of_liveOut member
      · exact fun symbol member => (SymbolSet.mem_inter.mp member).2

end

end Model

end SafeRefactor
