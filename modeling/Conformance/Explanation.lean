/-!
# Explanations

Why a check failed is told by a tree of messages. It is shown as lines, indented by two blanks for
each level that has messages, down to a depth and up to a number of lines.
-/

namespace Conformance

/-- Messages, and what explains them further. -/
structure Explanation where
  messages : List String
  children : List Explanation
deriving Repr

namespace Explanation

def empty : Explanation := ⟨[], []⟩

instance : Inhabited Explanation := ⟨empty⟩

def addMessage (e : Explanation) (message : String) : Explanation :=
  { e with messages := e.messages ++ [message] }

def addChild (e child : Explanation) : Explanation :=
  { e with children := e.children ++ [child] }

mutual

/-- No message stands anywhere in the tree. -/
def isEmpty : Explanation → Bool
  | ⟨messages, children⟩ => messages.isEmpty && allEmpty children

def allEmpty : List Explanation → Bool
  | [] => true
  | child :: children => child.isEmpty && allEmpty children

end

/-- Trees are shown no deeper than this many levels below the root. -/
def deepestLevel : Nat := 64

/-- The lines of a tree of at most `levels` levels, of which `depth` may have messages. -/
def linesWithin : (levels depth : Nat) → Explanation → List String
  | 0, _, _ => []
  | _ + 1, 0, _ => []
  | levels + 1, depth + 1, ⟨messages, children⟩ =>
    if messages.isEmpty then children.flatMap (linesWithin levels (depth + 1))
    else (messages ++ children.flatMap (linesWithin levels depth)).map ("  " ++ ·)

/-- The lines to `maxDepth` levels of messages, followed by an ellipsis if there are more than
`maxLines`; a negative number of lines means all of them. -/
def lines (e : Explanation) (maxDepth maxLines : Int) : List String :=
  let all := e.linesWithin (deepestLevel + 1) maxDepth.toNat
  if 0 ≤ maxLines ∧ maxLines.toNat < all.length then all.take maxLines.toNat ++ ["  ..."]
  else all

def toText (e : Explanation) (maxDepth maxLines : Int) : String :=
  "\n".intercalate (e.lines maxDepth maxLines)

theorem allEmpty_eq (children : List Explanation) : allEmpty children = children.all isEmpty := by
  induction children with
  | nil => rfl
  | cons c cs ih => simp [allEmpty, ih]

end Explanation

end Conformance
