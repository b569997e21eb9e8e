/-
# Regular expressions over bytes

A pattern for names denotes a set of byte strings. Membership is decided one byte at a time: the
expression that is left after a byte accepts exactly what the expression accepts behind that byte.
-/

namespace StatusCache
namespace Glob

/-- A regular expression over bytes. -/
inductive Expr
  /-- Accepts no string. -/
  | never
  /-- Accepts the empty string. -/
  | nothing
  /-- Accepts one byte inside the ranges, or outside of them. -/
  | byte (negated : Bool) (ranges : List (UInt8 × UInt8))
  | seq (a b : Expr)
  | alt (a b : Expr)
  | star (a : Expr)
deriving DecidableEq, Repr

namespace Expr

/-- One expression after the other, simplified where one of them is trivial. -/
def append : Expr → Expr → Expr
  | .never, _ => .never
  | .nothing, b => b
  | _, .never => .never
  | a, .nothing => a
  | a, b => .seq a b

/-- Either expression, simplified where one of them is trivial or both are the same. -/
def union : Expr → Expr → Expr
  | .never, b => b
  | a, .never => a
  | a, b => if a = b then a else .alt a b

/-- Any byte. -/
def any : Expr := .byte true []

/-- Any byte string. -/
def anything : Expr := .star any

/-- One given byte. -/
def single (b : UInt8) : Expr := .byte false [(b, b)]

/-- The given bytes. -/
def literal (bs : List UInt8) : Expr := bs.foldr (fun b rest => (single b).append rest) .nothing

/-- Whether the empty string is accepted. -/
def acceptsEmpty : Expr → Bool
  | .never => false
  | .nothing => true
  | .byte .. => false
  | .seq a b => a.acceptsEmpty && b.acceptsEmpty
  | .alt a b => a.acceptsEmpty || b.acceptsEmpty
  | .star _ => true

/-- What is left of an expression behind a byte. -/
def after (x : UInt8) : Expr → Expr
  | .never => .never
  | .nothing => .never
  | .byte negated ranges =>
    if (ranges.any fun (lo, hi) => lo ≤ x && x ≤ hi) = negated then .never else .nothing
  | .seq a b =>
    if a.acceptsEmpty then ((after x a).append b).union (after x b) else (after x a).append b
  | .alt a b => (after x a).union (after x b)
  | .star a => (after x a).append (.star a)

/-- Whether a byte string is accepted. -/
def accepts (e : Expr) : List UInt8 → Bool
  | [] => e.acceptsEmpty
  | x :: xs => (e.after x).accepts xs

end Expr
end Glob
end StatusCache
