import ExprScript.Peg.Basic

set_option autoImplicit false

/-! # What was expected where a match broke off

When a text does not match, the message names the rules that failed at the furthest position
any rule was tried at. `Grammar.attempts` follows a run of an expression and keeps these
rules. A rule stands for the rules that failed inside it at the same position, unless there is
exactly one such rule: then that one, being more precise, is kept in its place.

Silent rules and whatever is inside a token are never named. Only rules are named, never the
literal texts between them.
-/

namespace ExprScript

/-- The furthest position at which rules have failed, and these rules in order of failure. -/
structure Furthest (ρ : Type) where
  pos : Position
  rules : List ρ

namespace Furthest

variable {ρ : Type}

def initial : Furthest ρ := ⟨.first, []⟩

def countAt (f : Furthest ρ) (p : Position) : Nat :=
  if f.pos.offset = p.offset then f.rules.length else 0

/-- Notes that the rule `r` failed at `p`, where `before` was known when it was tried and
`f` is known since its body was run. -/
def note (before f : Furthest ρ) (p : Position) (r : ρ) : Furthest ρ :=
  -- exactly one rule has failed at `p` since, and it is more precise than `r`
  if f.countAt p = before.countAt p + 1 then f
  else if f.pos.offset = p.offset then ⟨f.pos, f.rules.take (before.countAt p) ++ [r]⟩
  else if f.pos.offset < p.offset then ⟨p, [r]⟩
  else f

/-- Rounds of a repetition: `look` notes the failures of a round, `step` is its outcome. -/
def rounds (look : Cursor → Furthest ρ → Furthest ρ) (step : Cursor → Outcome ρ) :
    Nat → Cursor → Furthest ρ → Furthest ρ
  | 0, _, f => f
  | n + 1, c, f =>
    match step c with
    | .ok c₁ _ => rounds look step n c₁ (look c f)
    | _ => look c f

end Furthest

namespace Grammar

variable {ρ : Type} (G : Grammar ρ)

/-- Whether failures of the rule are named. -/
def isNamed (r : ρ) : Bool := G.mode r != .silent

/-- The failed rules known after running an expression at a cursor, where `f` was known
before. -/
def attempts : Nat → Setting → Peg ρ → Cursor → Furthest ρ → Furthest ρ
  | 0, _, _, _, f => f
  | n + 1, s, e, c, f =>
    match s with
    | .token => f
    | _ =>
      match e with
      -- what must be absent is not expected, so its failures are not noted
      | .lit _ | .one _ | .done | .absent _ => f
      | .seq a b =>
        match G.eval n s a c with
        | .ok c₁ _ => attempts n s b (G.gap s c₁) (attempts n s a c f)
        | _ => attempts n s a c f
      | .alt a b =>
        match G.eval n s a c with
        | .fail => attempts n s b c (attempts n s a c f)
        | _ => attempts n s a c f
      | .star a =>
        match G.eval n s a c with
        | .ok c₁ _ =>
          Furthest.rounds (fun d => attempts n s a (G.gap s d)) (fun d => G.eval n s a (G.gap s d))
            (c₁.rest.length + 1) c₁ (attempts n s a c f)
        | _ => attempts n s a c f
      | .opt a => attempts n s a c f
      | .call r =>
        let f₁ := attempts n ((G.mode r).enter s) (G.body r) c f
        match G.eval (n + 1) s (.call r) c with
        | .fail => if G.isNamed r then f.note f₁ c.pos r else f₁
        | _ => f₁

end Grammar

end ExprScript
