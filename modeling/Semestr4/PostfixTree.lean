import Mathlib.Data.List.Basic

/-!
# Trees of binary operators in postorder

A stack of trees reads a list of tokens: a leaf is pushed, an operator takes the
two trees on top of the stack, the right operand first. What it has read is
always the postorder of the trees on the stack, one after the other.
-/

set_option autoImplicit false

namespace Semestr4.PostfixTree

inductive Tree (α β : Type*) where
  | leaf (a : α)
  | node (o : β) (l r : Tree α β)
  deriving DecidableEq, Repr

inductive Token (α β : Type*) where
  | leaf (a : α)
  | op (o : β)
  deriving DecidableEq, Repr

variable {α β γ : Type*}

def postorder : Tree α β → List (Token α β)
  | .leaf a => [.leaf a]
  | .node o l r => postorder l ++ postorder r ++ [.op o]

def value (leaf : α → γ) (op : β → γ → γ → γ) : Tree α β → γ
  | .leaf a => leaf a
  | .node o l r => op o (value leaf op l) (value leaf op r)

/-- The stack of trees after the tokens, or nothing where an operator finds
fewer than two. -/
def build : List (Token α β) → List (Tree α β) → Option (List (Tree α β))
  | [], st => some st
  | .leaf a::ts, st => build ts (.leaf a::st)
  | .op o::ts, r::l::st => build ts (.node o l r::st)
  | .op _::_, _ => none

def spelled (st : List (Tree α β)) : List (Token α β) := st.reverse.flatMap postorder

theorem spelled_cons (t : Tree α β) (st : List (Tree α β)) :
    spelled (t::st) = spelled st ++ postorder t := by
  simp [spelled]

theorem build_postorder (t : Tree α β) (ts : List (Token α β)) (st : List (Tree α β)) :
    build (postorder t ++ ts) st = build ts (t::st) := by
  induction t generalizing ts st with
  | leaf a => rfl
  | node o l r ihl ihr =>
    rw [postorder, List.append_assoc, List.append_assoc, ihl, ihr]
    rfl

theorem build_flatMap (trees : List (Tree α β)) (st : List (Tree α β)) :
    build (trees.flatMap postorder) st = some (trees.reverse ++ st) := by
  induction trees generalizing st with
  | nil => rfl
  | cons t trees ih =>
    rw [List.flatMap_cons, build_postorder, ih, List.reverse_cons, List.append_assoc]
    rfl

theorem build_spelled {ts : List (Token α β)} {st st' : List (Tree α β)}
    (h : build ts st = some st') : spelled st' = spelled st ++ ts := by
  induction ts generalizing st with
  | nil =>
    cases h
    exact (List.append_nil _).symm
  | cons token ts ih =>
    cases token with
    | leaf a =>
      rw [ih h, spelled_cons, List.append_assoc]
      rfl
    | op o =>
      cases st with
      | nil => cases h
      | cons r st =>
        cases st with
        | nil => cases h
        | cons l st =>
          rw [ih h, spelled_cons, spelled_cons, spelled_cons, postorder]
          simp only [List.append_assoc, List.singleton_append]

/-- The tokens are read exactly if they are those of some trees in a row. -/
theorem build_iff {ts : List (Token α β)} {st : List (Tree α β)} :
    build ts [] = some st ↔ ts = st.reverse.flatMap postorder := by
  constructor
  · intro h
    exact (build_spelled h).symm
  · rintro rfl
    rw [build_flatMap, List.reverse_reverse, List.append_nil]

theorem flatMap_injective {trees others : List (Tree α β)}
    (h : trees.flatMap postorder = others.flatMap postorder) : trees = others := by
  have hbuild := build_flatMap trees []
  rw [h, build_flatMap, Option.some.injEq, List.append_nil, List.append_nil] at hbuild
  exact (List.reverse_injective hbuild).symm

end Semestr4.PostfixTree
