import SafeRefactor.Member.Hierarchy
import SafeRefactor.Proofs.Subtree

/-!
# Inheritance

The hierarchy of a class is found by a search with a queue in which a class may wait more
than once.  The search ends, whatever the classes name as their bases, and lists the classes
that can be reached from the first one, each once and in breadth-first order.
-/

namespace SafeRefactor

namespace Hierarchy

/-- One class inherits from another one: a base of the first class is a plain or dotted name, and
the second class is the last of the given classes that has this name. -/
def Inherits (classes : List Node) (derived base : Node) : Prop :=
  ∃ expression ∈ derived.field .base, ∃ name, expression.lastName? = some name ∧
    ∃ before after, classes = before ++ base :: after ∧ base.className = name ∧
      ∀ other ∈ after, other.className ≠ name

/-- A class is reached from another one by a number of steps from a class to one that it inherits
from. -/
inductive ReachedIn (classes : List Node) (start : Node) : Nat → Node → Prop where
  | start : ReachedIn classes start 0 start
  | step {steps : Nat} {derived base : Node} : ReachedIn classes start steps derived →
      Inherits classes derived base → ReachedIn classes start (steps + 1) base

/-- The least number of steps by which a class is reached. -/
def Distance (classes : List Node) (start : Node) (steps : Nat) (cls : Node) : Prop :=
  ReachedIn classes start steps cls ∧ ∀ others, ReachedIn classes start others cls → steps ≤ others

/-- The list has the classes that are reached from a class, each once and in breadth-first order:
in the order in which the listed classes, one after the other, first name them, so that the
distances do not decrease. -/
structure BreadthFirst (classes : List Node) (start : Node) (listed : List Node) : Prop where
  first : listed.head? = some start
  distinct : (listed.map Node.id).Nodup
  reached : ∀ cls, cls ∈ listed ↔ ∃ steps, ReachedIn classes start steps cls
  order : listed.map Node.id =
    ((start :: listed.flatMap (baseClasses classes)).map Node.id).eraseDups
  nearest : listed.Pairwise (fun first second => ∀ near far,
    Distance classes start near first → Distance classes start far second → near ≤ far)

/-- The classes that the bases of a class are looked up in. -/
def knownClasses (module : Option Node) : List Node :=
  (module.map Node.classes).getD []

/-- A number tells which class of a list is meant. -/
def Identified (classes : List Node) : Prop :=
  ∀ first ∈ classes, ∀ second ∈ classes, first.id = second.id → first = second

theorem mem_baseClasses {classes : List Node} {derived base : Node} :
    base ∈ baseClasses classes derived ↔ Inherits classes derived base := by
  have last (name : String) :
      (classes.filter (fun definition => definition.className = name)).getLast? = some base ↔
        ∃ before after, classes = before ++ base :: after ∧ base.className = name ∧
          ∀ other ∈ after, other.className ≠ name := by
    rw [List.getLast?_filter, List.find?_eq_some_iff_append]
    constructor
    · rintro ⟨named, after, before, reversed, others⟩
      refine ⟨before.reverse, after.reverse, ?_, of_decide_eq_true named, ?_⟩
      · rw [← List.reverse_reverse classes, reversed]
        simp
      · intro other member
        simpa using others other (List.mem_reverse.mp member)
    · rintro ⟨before, after, rfl, named, others⟩
      refine ⟨decide_eq_true named, after.reverse, before.reverse, by simp, ?_⟩
      intro other member
      simpa using others other (List.mem_reverse.mp member)
  simp only [baseClasses, List.mem_filterMap, baseClass?, Option.bind_eq_some_iff, last, Inherits]

theorem baseClasses_subset {classes : List Node} {derived base : Node}
    (isBase : base ∈ baseClasses classes derived) : base ∈ classes := by
  obtain ⟨_, _, _, _, before, after, rfl, _⟩ := mem_baseClasses.mp isBase
  simp

private theorem mem_without {remaining : List Node} {definition other : Node} :
    other ∈ without remaining definition ↔ other ∈ remaining ∧ other.id ≠ definition.id := by
  simp [without]

private theorem any_id_iff {remaining : List Node} {definition : Node} :
    remaining.any (fun other => other.id = definition.id) = true ↔
      definition.id ∈ remaining.map Node.id := by
  simp

theorem explore_distinct (classes remaining queue : List Node) :
    ((explore classes remaining queue).map Node.id).Nodup ∧
      ∀ id ∈ (explore classes remaining queue).map Node.id, id ∈ remaining.map Node.id := by
  fun_induction explore classes remaining queue with
  | case1 remaining => simp
  | case2 remaining definition rest found induction =>
      obtain ⟨distinct, remain⟩ := induction
      rw [List.map_cons]
      refine ⟨List.nodup_cons.mpr ⟨?_, distinct⟩, List.forall_mem_cons.mpr ⟨?_, ?_⟩⟩
      · intro again
        obtain ⟨other, member, same⟩ := List.mem_map.mp (remain _ again)
        exact (mem_without.mp member).2 same
      · exact any_id_iff.mp found
      · intro id member
        obtain ⟨other, isOther, same⟩ := List.mem_map.mp (remain id member)
        exact List.mem_map.mpr ⟨other, (mem_without.mp isOther).1, same⟩
  | case3 remaining definition rest absent induction => exact induction

/-- What holds of the queue and passes from a class to its bases holds of the listed classes. -/
theorem explore_all {classes : List Node} (holds : Node → Prop)
    (passes : ∀ derived, holds derived → ∀ base ∈ baseClasses classes derived, holds base)
    (remaining queue : List Node) (all : ∀ cls ∈ queue, holds cls) :
    ∀ cls ∈ explore classes remaining queue, holds cls := by
  fun_induction explore classes remaining queue with
  | case1 remaining => exact nofun
  | case2 remaining definition rest found induction =>
      obtain ⟨first, others⟩ := List.forall_mem_cons.mp all
      refine List.forall_mem_cons.mpr ⟨first, induction ?_⟩
      intro cls member
      rcases List.mem_append.mp member with waiting | isBase
      · exact others cls waiting
      · exact passes definition first cls isBase
  | case3 remaining definition rest absent induction =>
      exact induction (List.forall_mem_cons.mp all).2

/-- The search lists the classes in the order in which the queue and the bases of the listed classes
first name them. -/
theorem map_id_explore (classes remaining queue : List Node) :
    (explore classes remaining queue).map Node.id =
      (((queue ++ (explore classes remaining queue).flatMap (baseClasses classes)).map
        Node.id).filter (fun id => (remaining.map Node.id).contains id)).eraseDups := by
  fun_induction explore classes remaining queue with
  | case1 remaining => simp
  | case2 remaining definition rest found induction =>
      have kept (id : NodeId) : ((without remaining definition).map Node.id).contains id =
          (!id == definition.id && (remaining.map Node.id).contains id) := by
        rw [Bool.eq_iff_iff]
        simp only [List.contains_iff_mem, List.mem_map, mem_without, Bool.and_eq_true,
          Bool.not_eq_true', beq_eq_false_iff_ne]
        constructor
        · rintro ⟨other, ⟨member, different⟩, rfl⟩
          exact ⟨different, other, member, rfl⟩
        · rintro ⟨different, other, member, rfl⟩
          exact ⟨other, ⟨member, different⟩, rfl⟩
      have listed : (remaining.map Node.id).contains definition.id = true :=
        List.contains_iff_mem.mpr (any_id_iff.mp found)
      rw [List.map_cons, List.cons_append, List.map_cons, List.filter_cons_of_pos listed,
        List.eraseDups_cons, List.filter_filter, List.flatMap_cons, ← List.append_assoc]
      simp only [← kept]
      exact congrArg (definition.id :: ·) induction
  | case3 remaining definition rest absent induction =>
      have missing : ¬ (remaining.map Node.id).contains definition.id = true :=
        fun listed => absent (any_id_iff.mpr (List.contains_iff_mem.mp listed))
      rw [List.cons_append, List.map_cons, List.filter_cons_of_neg missing]
      exact induction

/-- The search as far as it gets when a number of classes are taken from the queue. -/
def exploreFor (classes : List Node) : Nat → List Node → List Node → Option (List Node)
  | _, _, [] => some []
  | 0, _, _ :: _ => none
  | steps + 1, remaining, definition :: rest =>
      if remaining.any (fun other => other.id = definition.id) then
        (exploreFor classes steps (without remaining definition)
          (rest ++ baseClasses classes definition)).map (definition :: ·)
      else exploreFor classes steps remaining rest

/-- The search ends when as many classes have been taken as were in the queue and are named by the
listed classes. -/
theorem exploreFor_eq (classes remaining queue : List Node) :
    exploreFor classes
        (queue.length + ((explore classes remaining queue).flatMap (baseClasses classes)).length)
        remaining queue = some (explore classes remaining queue) := by
  fun_induction explore classes remaining queue with
  | case1 remaining => rw [exploreFor]
  | case2 remaining definition rest found induction =>
      rw [List.length_append] at induction
      rw [List.flatMap_cons, List.length_append, List.length_cons, Nat.add_right_comm,
        ← Nat.add_assoc, exploreFor, if_pos found, induction, Option.map_some]
  | case3 remaining definition rest absent induction =>
      rw [List.length_cons, Nat.add_right_comm, exploreFor, if_neg absent, induction]

/-- How far a search has come that takes classes by their distance.  The queue has first classes at
one distance and then classes one step further; what is not in it has been taken or will be
named by a class of the queue. -/
structure Level (classes : List Node) (start : Node) (remaining : List Node) (steps : Nat)
    (front back : List Node) : Prop where
  within : ∀ cls ∈ remaining, cls ∈ start :: classes
  near : ∀ cls ∈ front, ReachedIn classes start steps cls
  far : ∀ cls ∈ back, ReachedIn classes start (steps + 1) cls
  nearer : ∀ fewer < steps, ∀ cls, ReachedIn classes start fewer cls → cls ∉ remaining
  waiting : ∀ cls ∈ remaining, ReachedIn classes start steps cls → cls ∈ front
  named : ∀ derived others, ReachedIn classes start others derived → derived ∉ remaining →
    ∀ base ∈ remaining, Inherits classes derived base → base ∈ front ++ back

private theorem mem_of_reachedIn {classes : List Node} {start cls : Node} {steps : Nat}
    (reached : ReachedIn classes start steps cls) : cls ∈ start :: classes := by
  cases reached with
  | start => exact List.mem_cons_self
  | step _ inherits =>
      exact List.mem_cons_of_mem _ (baseClasses_subset (mem_baseClasses.mpr inherits))

namespace Level

variable {classes remaining front back : List Node} {start definition : Node} {steps : Nat}

theorem initial : Level classes start (start :: classes) 0 [start] [] where
  within _ member := member
  near cls member := by
    obtain rfl := List.mem_singleton.mp member
    exact .start
  far := nofun
  nearer := nofun
  waiting cls _ reached := by
    cases reached
    exact List.mem_cons_self
  named derived others reached taken := absurd (mem_of_reachedIn reached) taken

/-- Where all classes at one distance have been taken, the others of the queue are one step
further. -/
theorem shift (level : Level classes start remaining steps [] back) :
    Level classes start remaining (steps + 1) back [] where
  within := level.within
  near := level.far
  far := nofun
  nearer fewer less cls reached := by
    intro remains
    rcases Nat.lt_succ_iff_lt_or_eq.mp less with before | rfl
    · exact level.nearer fewer before cls reached remains
    · exact List.not_mem_nil (level.waiting cls remains reached)
  waiting cls remains reached := by
    cases reached with
    | step reached inherits =>
        have taken := fun remains => List.not_mem_nil (level.waiting _ remains reached)
        exact level.named _ _ reached taken cls remains inherits
  named derived others reached taken base remains inherits := by
    rw [List.append_nil]
    exact level.named derived others reached taken base remains inherits

theorem pass (level : Level classes start remaining steps (definition :: front) back)
    (taken : definition ∉ remaining) : Level classes start remaining steps front back where
  within := level.within
  near cls member := level.near cls (List.mem_cons_of_mem _ member)
  far := level.far
  nearer := level.nearer
  waiting cls remains reached := by
    have waiting := level.waiting cls remains reached
    exact List.mem_of_ne_of_mem (ne_of_mem_of_not_mem remains taken) waiting
  named derived others reached gone base remains inherits := by
    have waiting := level.named derived others reached gone base remains inherits
    exact List.mem_of_ne_of_mem (ne_of_mem_of_not_mem remains taken) waiting

theorem take (identified : Identified (start :: classes))
    (level : Level classes start remaining steps (definition :: front) back) :
    Level classes start (without remaining definition) steps front
      (back ++ baseClasses classes definition) where
  within cls member := level.within cls (mem_without.mp member).1
  near cls member := level.near cls (List.mem_cons_of_mem _ member)
  far cls member := by
    rcases List.mem_append.mp member with waiting | isBase
    · exact level.far cls waiting
    · exact .step (level.near definition List.mem_cons_self) (mem_baseClasses.mp isBase)
  nearer fewer less cls reached member :=
    level.nearer fewer less cls reached (mem_without.mp member).1
  waiting cls member reached := by
    obtain ⟨remains, different⟩ := mem_without.mp member
    exact List.mem_of_ne_of_mem (fun same => different (congrArg Node.id same))
      (level.waiting cls remains reached)
  named derived others reached gone base member inherits := by
    obtain ⟨remains, different⟩ := mem_without.mp member
    by_cases waiting : derived ∈ remaining
    · -- The class that was waiting and is gone is the one that is taken.
      have same : derived.id = definition.id := by
        by_contra other
        exact gone (mem_without.mpr ⟨waiting, other⟩)
      obtain rfl := identified derived (mem_of_reachedIn reached) definition
        (mem_of_reachedIn (level.near definition List.mem_cons_self)) same
      simp [mem_baseClasses.mpr inherits]
    · have listed := level.named derived others reached waiting base remains inherits
      have later := List.mem_of_ne_of_mem (fun same => different (congrArg Node.id same)) listed
      rw [← List.append_assoc]
      exact List.mem_append_left _ later

private theorem exists_near {rest : List Node}
    (level : Level classes start remaining steps front back)
    (queue : definition :: rest = front ++ back) :
    ∃ distance near far, steps ≤ distance ∧ rest = near ++ far ∧
      Level classes start remaining distance (definition :: near) far := by
  cases front with
  | nil =>
      rw [List.nil_append] at queue
      subst queue
      exact ⟨steps + 1, rest, [], Nat.le_succ steps, (List.append_nil rest).symm, level.shift⟩
  | cons first others =>
      obtain ⟨rfl, rfl⟩ := List.cons.inj queue
      exact ⟨steps, others, back, Nat.le_refl steps, rfl, level⟩

/-- A class in front of the queue that has not been taken has the distance of the level. -/
theorem least (level : Level classes start remaining steps (definition :: front) back)
    (remains : definition ∈ remaining) : Distance classes start steps definition := by
  refine ⟨level.near definition List.mem_cons_self, ?_⟩
  intro others reached
  by_contra fewer
  exact level.nearer others (Nat.lt_of_not_le fewer) definition reached remains

end Level

/-- A search that has come to a level lists no nearer class, and it lists the classes by their
distance. -/
theorem explore_levels {classes remaining queue front back : List Node} {start : Node} {steps : Nat}
    (identified : Identified (start :: classes))
    (level : Level classes start remaining steps front back) (waiting : queue = front ++ back) :
    (∀ cls ∈ explore classes remaining queue, ∀ others, ReachedIn classes start others cls →
      steps ≤ others) ∧
    (explore classes remaining queue).Pairwise (fun first second => ∀ near far,
      Distance classes start near first → Distance classes start far second → near ≤ far) := by
  fun_induction explore classes remaining queue generalizing steps front back with
  | case1 remaining => exact ⟨nofun, List.Pairwise.nil⟩
  | case2 remaining definition rest found induction =>
      obtain ⟨distance, near, far, further, rfl, level⟩ := level.exists_near waiting
      have remains : definition ∈ remaining := by
        obtain ⟨other, member, same⟩ := List.mem_map.mp (any_id_iff.mp found)
        have isKnown := mem_of_reachedIn (level.near definition List.mem_cons_self)
        rwa [← identified other (level.within other member) definition isKnown same]
      obtain ⟨reachedAt, least⟩ := level.least remains
      obtain ⟨later, ordered⟩ :=
        induction (level.take identified) (List.append_assoc near far _)
      refine ⟨List.forall_mem_cons.mpr ⟨?_, ?_⟩, List.pairwise_cons.mpr ⟨?_, ordered⟩⟩
      · intro others reached
        exact Nat.le_trans further (least others reached)
      · intro cls member others reached
        exact Nat.le_trans further (later cls member others reached)
      · intro cls member first second nearest beyond
        exact Nat.le_trans (nearest.2 distance reachedAt) (later cls member second beyond.1)
  | case3 remaining definition rest absent induction =>
      obtain ⟨distance, near, far, further, rfl, level⟩ := level.exists_near waiting
      have taken : definition ∉ remaining :=
        fun remains => absent (any_id_iff.mpr (List.mem_map_of_mem remains))
      obtain ⟨later, ordered⟩ := induction (level.pass taken) rfl
      refine ⟨?_, ordered⟩
      intro cls member others reached
      exact Nat.le_trans further (later cls member others reached)

theorem ofClass_eq (module : Option Node) (definition : Node) :
    ofClass module definition =
      explore (knownClasses module) (definition :: knownClasses module) [definition] := by
  cases module with
  | none =>
      have noBases : baseClasses [] definition = [] :=
        List.eq_nil_iff_forall_not_mem.mpr fun _ isBase => nomatch baseClasses_subset isBase
      simp [ofClass, explore, knownClasses, noBases]
  | some tree => rfl

/-- The search from a class lists the classes that it reaches, in breadth-first order. -/
theorem breadthFirst_ofClass (module : Option Node) {definition : Node}
    (identified : Identified (definition :: knownClasses module)) :
    BreadthFirst (knownClasses module) definition (ofClass module definition) := by
  have known : ∀ cls ∈ ofClass module definition, cls ∈ definition :: knownClasses module := by
    rw [ofClass_eq]
    apply explore_all (fun cls => cls ∈ definition :: knownClasses module)
    · intro derived _ base isBase
      exact List.mem_cons_of_mem _ (baseClasses_subset isBase)
    · simp
  have order : (ofClass module definition).map Node.id =
      ((definition :: (ofClass module definition).flatMap
        (baseClasses (knownClasses module))).map Node.id).eraseDups := by
    have named := map_id_explore (knownClasses module) (definition :: knownClasses module)
      [definition]
    rw [← ofClass_eq, List.singleton_append, List.filter_eq_self.mpr] at named
    · exact named
    · intro id member
      rw [List.contains_iff_mem]
      refine List.map_subset Node.id ?_ member
      apply List.cons_subset_cons
      intro base isBase
      obtain ⟨derived, _, isBase⟩ := List.mem_flatMap.mp isBase
      exact baseClasses_subset isBase
  have listed {cls : Node} (isKnown : cls ∈ definition :: knownClasses module)
      (isNamed : cls ∈ definition :: (ofClass module definition).flatMap
        (baseClasses (knownClasses module))) : cls ∈ ofClass module definition := by
    have member : cls.id ∈ (ofClass module definition).map Node.id := by
      rw [order, List.mem_eraseDups]
      exact List.mem_map_of_mem isNamed
    obtain ⟨other, isListed, same⟩ := List.mem_map.mp member
    rwa [← identified other (known other isListed) cls isKnown same]
  refine ⟨?_, ?_, ?_, order, ?_⟩
  · rw [ofClass_eq, explore]
    simp
  · rw [ofClass_eq]
    exact (explore_distinct _ _ _).1
  · intro cls
    constructor
    · intro member
      rw [ofClass_eq] at member
      refine explore_all (fun cls => ∃ steps, ReachedIn _ definition steps cls) ?_ _ _ ?_ cls member
      · rintro derived ⟨steps, reached⟩ base isBase
        exact ⟨steps + 1, .step reached (mem_baseClasses.mp isBase)⟩
      · simpa using ⟨0, .start⟩
    · rintro ⟨steps, reached⟩
      induction reached with
      | start => exact listed List.mem_cons_self List.mem_cons_self
      | step reached inherits induction =>
          have isBase := mem_baseClasses.mpr inherits
          exact listed (List.mem_cons_of_mem _ (baseClasses_subset isBase))
            (List.mem_cons_of_mem _ (List.mem_flatMap.mpr ⟨_, induction, isBase⟩))
  · rw [ofClass_eq]
    exact (explore_levels identified .initial rfl).2

theorem mem_memberNames {module : Option Node} {definition : Node} {wanted : Member → Bool}
    {name : String} :
    name ∈ memberNames module definition wanted ↔ ∃ cls ∈ ofClass module definition,
      ∃ member ∈ Member.ofClass cls, wanted member = true ∧ member.name = name := by
  simp [memberNames, and_assoc]

/-- The hierarchy of a class is found in finitely many steps.  It has the classes that the class
reaches, in breadth-first order, and the names of its members are those of the members of these
classes. -/
theorem hierarchy_is_reachability (module : Option Node) {definition : Node}
    (identified : Identified (definition :: knownClasses module)) :
    exploreFor (knownClasses module)
        (1 + ((ofClass module definition).flatMap (baseClasses (knownClasses module))).length)
        (definition :: knownClasses module) [definition] = some (ofClass module definition) ∧
      BreadthFirst (knownClasses module) definition (ofClass module definition) ∧
      (∀ name, name ∈ instanceMemberNames module definition ↔
        ∃ cls steps, ReachedIn (knownClasses module) definition steps cls ∧
          ∃ member ∈ Member.ofClass cls,
            member.kind ≠ .method ∧ member.isStatic = false ∧ member.name = name) ∧
      ∀ name, name ∈ methodNames module definition ↔
        ∃ cls steps, ReachedIn (knownClasses module) definition steps cls ∧
          ∃ member ∈ Member.ofClass cls, member.kind = .method ∧ member.name = name := by
  have search := breadthFirst_ofClass module identified
  refine ⟨?_, search, ?_, ?_⟩
  · rw [ofClass_eq]
    exact exploreFor_eq _ _ [definition]
  · intro name
    simp only [instanceMemberNames, mem_memberNames, search.reached, Bool.and_eq_true, bne_iff_ne,
      Bool.not_eq_true', and_assoc, exists_and_right]
  · intro name
    simp only [methodNames, mem_memberNames, search.reached, decide_eq_true_eq, exists_and_right]

/-- In a tree with distinct numbers a number tells which class is meant. -/
theorem Identified.of_distinct {tree definition : Node} (distinct : tree.Distinct)
    (member : definition ∈ tree.nodes) : Identified (definition :: knownClasses (some tree)) := by
  have inside : ∀ cls ∈ definition :: knownClasses (some tree), cls ∈ tree.nodes := by
    refine List.forall_mem_cons.mpr ⟨member, ?_⟩
    intro cls isKnown
    exact Node.mem_walk.mp (List.mem_of_mem_filter isKnown)
  intro first isFirst second isSecond same
  exact distinct.eq_of_id (inside first isFirst) (inside second isSecond) same

def circularClass : Node :=
  .mk (.classDef "A") ⟨1, .body, some ⟨⟨1, 0⟩, ⟨2, 8⟩⟩⟩ [
    .mk (.name "B" .load) ⟨2, .base, some ⟨⟨1, 8⟩, ⟨1, 9⟩⟩⟩ [],
    .mk (.attribute "B" .load) ⟨3, .base, some ⟨⟨1, 11⟩, ⟨1, 14⟩⟩⟩ [
      .mk (.name "p" .load) ⟨4, .value, some ⟨⟨1, 11⟩, ⟨1, 12⟩⟩⟩ []],
    .mk .passStmt ⟨5, .body, some ⟨⟨2, 4⟩, ⟨2, 8⟩⟩⟩ []]

/-- A module with that class, two classes `B`, of which the second one has the bases `A` and `C`,
and a class `C` that names itself as its base. -/
def circularModule : Node :=
  .mk .module ⟨0, .root, none⟩ [
    circularClass,
    .mk (.classDef "B") ⟨6, .body, some ⟨⟨4, 0⟩, ⟨5, 8⟩⟩⟩ [
      .mk .passStmt ⟨7, .body, some ⟨⟨5, 4⟩, ⟨5, 8⟩⟩⟩ []],
    .mk (.classDef "B") ⟨8, .body, some ⟨⟨7, 0⟩, ⟨8, 8⟩⟩⟩ [
      .mk (.name "A" .load) ⟨9, .base, some ⟨⟨7, 8⟩, ⟨7, 9⟩⟩⟩ [],
      .mk (.name "C" .load) ⟨10, .base, some ⟨⟨7, 11⟩, ⟨7, 12⟩⟩⟩ [],
      .mk .passStmt ⟨11, .body, some ⟨⟨8, 4⟩, ⟨8, 8⟩⟩⟩ []],
    .mk (.classDef "C") ⟨12, .body, some ⟨⟨10, 0⟩, ⟨12, 12⟩⟩⟩ [
      .mk (.name "C" .load) ⟨13, .base, some ⟨⟨10, 8⟩, ⟨10, 9⟩⟩⟩ [],
      .mk (.functionDef false "m" none) ⟨14, .body, some ⟨⟨11, 4⟩, ⟨12, 12⟩⟩⟩ [
        .mk (.parameters []) ⟨15, .parameters, none⟩ [
          .mk (.parameter "self" none) ⟨16, .positional, some ⟨⟨11, 10⟩, ⟨11, 14⟩⟩⟩ []],
        .mk .passStmt ⟨17, .body, some ⟨⟨12, 8⟩, ⟨12, 12⟩⟩⟩ []]]]

/-- Of the circular classes each is listed once, the second `B` before `C`, and `C` lends its method
to `A`. -/
theorem hierarchy_is_reachability_circular :
    Identified (circularClass :: knownClasses (some circularModule)) ∧
      BreadthFirst (knownClasses (some circularModule)) circularClass
        (ofClass (some circularModule) circularClass) ∧
      (ofClass (some circularModule) circularClass).map Node.id = [1, 8, 12] ∧
      ∃ cls steps, ReachedIn (knownClasses (some circularModule)) circularClass steps cls ∧
        ∃ member ∈ Member.ofClass cls, member.kind = .method ∧ member.name = "m" := by
  have identified : Identified (circularClass :: knownClasses (some circularModule)) :=
    .of_distinct (by decide) (Node.child_mem_nodes List.mem_cons_self)
  have listed : (ofClass (some circularModule) circularClass).map Node.id = [1, 8, 12] := by cbv
  have named : (methodNames (some circularModule) circularClass).contains "m" = true := by cbv
  obtain ⟨_, search, _, methods⟩ := hierarchy_is_reachability (some circularModule) identified
  exact ⟨identified, search, listed, (methods "m").mp (List.contains_iff_mem.mp named)⟩

end Hierarchy

end SafeRefactor
