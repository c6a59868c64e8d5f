import Conformance.Substitution

/-!
# Linearization

The ancestors of a class in one order that agrees with the order of its bases and with the order of
the ancestors of each base. The lists of the bases and the list of the bases themselves are merged:
the next ancestor is the head of the first list that can be taken, a class only if it stands in no
tail. Where no list can be taken the hierarchy has no such order, and what is left follows as it
stands, each entry once.
-/

namespace Conformance

namespace Ancestor

/-- The entry stands somewhere behind the head of a list. -/
def inTail (lists : List (List Ancestor)) (a : Ancestor) : Bool :=
  lists.any fun list => list.tail.any (·.same a)

/-- A head that can be taken: anything that is no class object, or a class that is in no tail. -/
def isFree (lists : List (List Ancestor)) (a : Ancestor) : Bool :=
  match a with
  | resolved _ => !inTail lists a
  | unresolved _ _ => true

/-- The head of the first list whose head can be taken. -/
def nextHead (lists : List (List Ancestor)) : Option Ancestor :=
  (lists.filterMap List.head?).find? (isFree lists)

/-- Takes an entry off each list that begins with it. -/
def dropHead (a : Ancestor) : List Ancestor → List Ancestor
  | [] => []
  | b :: bs => if b.same a then bs else b :: bs

def dropHeads (a : Ancestor) (lists : List (List Ancestor)) : List (List Ancestor) :=
  lists.map (dropHead a)

/-- The number of entries still to be placed. -/
def remaining (lists : List (List Ancestor)) : Nat :=
  lists.foldr (fun list n => list.length + n) 0

theorem same_self (a : Ancestor) : a.same a = true := by
  cases a <;> simp [same, ClassTy.sameClass]

theorem length_dropHead_le (a : Ancestor) (list : List Ancestor) :
    (dropHead a list).length ≤ list.length := by
  cases list with
  | nil => simp [dropHead]
  | cons b bs =>
    rw [dropHead]
    split <;> simp

theorem remaining_dropHeads_le (a : Ancestor) (lists : List (List Ancestor)) :
    remaining (dropHeads a lists) ≤ remaining lists := by
  induction lists with
  | nil => simp [remaining, dropHeads]
  | cons l ls ih =>
    have := length_dropHead_le a l
    simp only [remaining, dropHeads, List.map_cons, List.foldr_cons] at ih ⊢
    omega

theorem remaining_dropHeads_lt {a : Ancestor} {lists : List (List Ancestor)}
    (h : a ∈ lists.filterMap List.head?) : remaining (dropHeads a lists) < remaining lists := by
  induction lists with
  | nil => simp at h
  | cons l ls ih =>
    have hle := length_dropHead_le a l
    have hrest := remaining_dropHeads_le a ls
    simp only [remaining, dropHeads, List.map_cons, List.foldr_cons] at ih hrest ⊢
    cases l with
    | nil =>
      have := ih (by simpa using h)
      omega
    | cons b bs =>
      simp only [List.filterMap_cons, List.head?_cons, List.mem_cons] at h
      rcases h with rfl | h
      · have hd : dropHead a (a :: bs) = bs := by simp [dropHead, same_self]
        rw [hd, List.length_cons]
        omega
      · have := ih h
        omega

/-- Adds the entries that are not there yet. -/
def appendMissing (found : List Ancestor) (lists : List (List Ancestor)) : List Ancestor :=
  lists.flatten.foldl (fun found a => if found.any (·.same a) then found else found ++ [a]) found

/-- Merges the lists behind what was found; the flag says whether an order exists. -/
def merge (found : List Ancestor) (lists : List (List Ancestor)) : List Ancestor × Bool :=
  match _h : nextHead lists with
  | some a => merge (found ++ [a]) (dropHeads a lists)
  | none => (appendMissing found lists, lists.all List.isEmpty)
termination_by remaining lists
decreasing_by exact remaining_dropHeads_lt (List.mem_of_find?_eq_some ‹nextHead lists = some a›)

end Ancestor

namespace ClassTable

/-- The class and its ancestors, in terms of the type arguments of the view. -/
def lineage (classes : ClassTable) (c : ClassTy) : StateM Inference (List Ancestor) := do
  let ancestors ← (classes.decl c.id).mro.mapM fun a => do
    match a with
    | .resolved b =>
      let b ← b.specialize classes c
      pure (.resolved b)
    | .unresolved _ _ => pure a
  pure (.resolved c.toClassObject :: ancestors)

/-- The ancestors that a base brings along, itself first. -/
def lineageOfBase (classes : ClassTable) (base : Ancestor) : StateM Inference (List Ancestor) :=
  match base with
  | .resolved c => classes.lineage c
  | .unresolved _ _ => pure [.unknown]

/-- The table with the linearization of a class put in, from its bases, and whether an order of
the ancestors exists. While the order is found the class has no ancestors. -/
def linearize (classes : ClassTable) (id : ClassId) : StateM Inference (ClassTable × Bool) := do
  let cleared := classes.modify id fun d => { d with mro := [] }
  let bases := (cleared.decl id).bases
  let lists ← bases.mapM cleared.lineageOfBase
  let (order, consistent) := Ancestor.merge [] (lists ++ [bases])
  pure (cleared.modify id fun d => { d with mro := order }, consistent)

end ClassTable

end Conformance
