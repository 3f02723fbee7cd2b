import ExprScript.Proofs.Grammar.Tokens
import Mathlib.Data.Int.Basic

set_option autoImplicit false

/-! # Strings, comments and brackets in a text

`Lexing.scan` goes through a text character by character and keeps track of what an editor would:
whether the place is in a string or in a comment, how many brackets are open, and which character
came last that is no layout. It knows nothing of the grammar; what it says about a text is the same
wherever the words of the grammar are cut off the front: marks (`exists_scan_marks`), strings
(`scan_quoted`) and layout (`passes`).
-/

namespace ExprScript

open Grammar Rule

/-- Where a place in a text is: among the words, in a comment, or in a string with the quote
`q`. -/
inductive LexMode where
  | code
  | comment
  | quoted (q : Char)
deriving DecidableEq

/-- What is known of the text before a place. -/
structure Lexing where
  mode : LexMode := .code
  /-- brackets opened and not yet closed -/
  depth : Int := 0
  /-- the last character outside layout -/
  last : Option Char := none
deriving DecidableEq

namespace Lexing

/-- What a character adds to the number of open brackets. -/
def bracket (c : Char) : Int :=
  if c = '(' ∨ c = '[' ∨ c = '\x7b' then 1 else if c = ')' ∨ c = ']' ∨ c = '\x7d' then -1 else 0

/-- What a text adds to the number of open brackets. -/
def brackets : List Char → Int
  | [] => 0
  | c :: cs => bracket c + brackets cs

theorem brackets_eq_zero {w : List Char} (h : ∀ c ∈ w, bracket c = 0) : brackets w = 0 := by
  induction w with
  | nil => rfl
  | cons c w ih =>
      obtain ⟨hc, hrest⟩ := List.forall_mem_cons.1 h
      rw [brackets, hc, ih hrest]
      rfl

/-- What is known behind a text, given what is known before it. A backslash in a string takes the
character behind it along. -/
def scan : Lexing → List Char → Lexing
  | st, [] => st
  | ⟨.comment, n, l⟩, c :: cs => scan ⟨if c = '\n' then .code else .comment, n, l⟩ cs
  | ⟨.quoted q, n, _⟩, '\\' :: c :: cs => scan ⟨.quoted q, n, some c⟩ cs
  | ⟨.quoted q, n, _⟩, c :: cs => scan ⟨if c = q then .code else .quoted q, n, some c⟩ cs
  | ⟨.code, n, l⟩, '/' :: '/' :: cs => scan ⟨.comment, n, l⟩ cs
  | ⟨.code, n, l⟩, c :: cs =>
    if Layout.isSpace c then scan ⟨.code, n, l⟩ cs
    else if c = '\'' ∨ c = '"' then scan ⟨.quoted c, n, some c⟩ cs
    else scan ⟨.code, n + bracket c, some c⟩ cs

variable {n : Int} {l : Option Char}

theorem scan_nil (st : Lexing) : st.scan [] = st := by
  rw [scan]

theorem scan_space {c : Char} (hc : Layout.isSpace c = true) (cs : List Char) :
    scan ⟨.code, n, l⟩ (c :: cs) = scan ⟨.code, n, l⟩ cs := by
  rw [scan, if_pos hc]
  rintro ds rfl
  simp [Layout.isSpace] at hc

/-- A character among the words that begins neither a comment nor a string. -/
theorem scan_mark {c : Char} {cs : List Char} (hfree : Layout.Free (c :: cs)) (hs : c ≠ '\'')
    (hd : c ≠ '"') :
    scan ⟨.code, n, l⟩ (c :: cs) = scan ⟨.code, n + bracket c, some c⟩ cs := by
  rw [scan, if_neg (by simp [hfree.1]), if_neg (by simp [hs, hd])]
  rintro ds rfl rfl
  exact hfree.2 ⟨rfl, rfl⟩

theorem scan_quote {q : Char} (hq : q = '\'' ∨ q = '"') (cs : List Char) :
    scan ⟨.code, n, l⟩ (q :: cs) = scan ⟨.quoted q, n, some q⟩ cs := by
  rw [scan]
  · rcases hq with rfl | rfl <;> rfl
  · rintro ds rfl
    simp at hq

theorem scan_inner {q c : Char} (hc : c ≠ '\\') (cs : List Char) :
    scan ⟨.quoted q, n, l⟩ (c :: cs) =
      scan ⟨if c = q then .code else .quoted q, n, some c⟩ cs := by
  rw [scan]
  rintro d ds rfl
  exact absurd rfl hc

/-- Where brackets are counted from makes no difference to strings and comments. -/
theorem scan_from (st : Lexing) (x : List Char) (k : Int) (l : Option Char) :
    (scan ⟨st.mode, st.depth + k, l⟩ x).mode = (st.scan x).mode ∧
      (scan ⟨st.mode, st.depth + k, l⟩ x).depth = (st.scan x).depth + k := by
  induction st, x using scan.induct generalizing l with
  | case1 st =>
      rw [scan_nil, scan_nil]
      exact ⟨rfl, rfl⟩
  | case2 n l₁ c cs ih =>
      rw [scan, scan]
      exact ih l
  | case3 q n l₁ c cs ih =>
      rw [scan, scan]
      exact ih (some c)
  | case4 q n l₁ c cs h ih =>
      rw [scan, scan]
      · exact ih (some c)
      · exact h
      · exact h
  | case5 n l₁ cs ih =>
      rw [scan, scan]
      exact ih l
  | case6 n l₁ c cs h hs ih =>
      rw [scan_space hs, scan_space hs]
      exact ih l
  | case7 n l₁ c cs h hs hq ih =>
      rw [scan_quote hq, scan_quote hq]
      exact ih (some c)
  | case8 n l₁ c cs h hs hq ih =>
      -- neither space nor a comment nor a quote begins here
      have hfree : Layout.Free (c :: cs) := by
        refine ⟨by simpa using hs, fun hslash => ?_⟩
        obtain ⟨rfl, hhead⟩ := hslash
        obtain ⟨ds, rfl⟩ := List.head?_eq_some_iff.1 hhead
        exact h ds rfl rfl
      rw [not_or] at hq
      rw [scan_mark hfree hq.1 hq.2, scan_mark hfree hq.1 hq.2]
      have hdepth : n + bracket c + k = n + k + bracket c := by omega
      rw [← hdepth]
      exact ih (some c)

/-! ## Marks -/

/-- A character that begins neither layout nor a string, whatever stands behind it. -/
def isMark (c : Char) : Bool := !Layout.isSpace c && c != '\'' && c != '"' && c != '/'

/-- Marks are passed over one by one. -/
theorem exists_scan_marks {w : List Char} (hw : ∀ c ∈ w, isMark c = true) (n : Int)
    (l : Option Char) :
    ∃ l', ∀ x, scan ⟨.code, n, l⟩ (w ++ x) = scan ⟨.code, n + brackets w, l'⟩ x := by
  induction w generalizing n l with
  | nil => exact ⟨l, fun x => by rw [brackets, Int.add_zero, List.nil_append]⟩
  | cons c w ih =>
      obtain ⟨hc, hrest⟩ := List.forall_mem_cons.1 hw
      simp only [isMark, Bool.and_eq_true, bne_iff_ne, Bool.not_eq_true'] at hc
      obtain ⟨⟨⟨hspace, hsingle⟩, hdouble⟩, hslash⟩ := hc
      obtain ⟨l', hl'⟩ := ih hrest (n + bracket c) (some c)
      refine ⟨l', fun x => ?_⟩
      have hfree : Layout.Free (c :: (w ++ x)) := ⟨hspace, fun h => hslash h.1⟩
      rw [List.cons_append, scan_mark hfree hsingle hdouble, hl', brackets, Int.add_assoc]

/-! ## Strings -/

theorem scan_quoted {q : Char} {body : List Char} (h : Quoted q body) (hq : q ≠ '\\')
    (n : Int) (l : Option Char) (x : List Char) :
    scan ⟨.quoted q, n, l⟩ (body ++ q :: x) = scan ⟨.code, n, some q⟩ x := by
  induction h generalizing l with
  | nil =>
      rw [List.nil_append, scan_inner hq, if_pos rfl]
  | pair c _ ih => exact ih (some c)
  | @char c cs hcq hc _ ih =>
      rw [List.cons_append, scan_inner hc, if_neg hcq]
      exact ih (some c)

/-- A string that has ended has its closing quote. -/
theorem exists_quoted_of_scan {q : Char} (hq : q ≠ '\\') {x : List Char}
    (h : (scan ⟨.quoted q, n, l⟩ x).mode ≠ .quoted q) :
    ∃ body y, x = body ++ q :: y ∧ Quoted q body := by
  induction hlen : x.length using Nat.strong_induction_on generalizing x l with
  | _ len ih =>
      have further {y : List Char} {l' : Option Char} (hlt : y.length < len)
          (heq : scan ⟨.quoted q, n, l⟩ x = scan ⟨.quoted q, n, l'⟩ y) :
          ∃ body z, y = body ++ q :: z ∧ Quoted q body :=
        ih y.length hlt (by rwa [← heq]) rfl
      obtain _ | ⟨c, cs⟩ := x
      · exact absurd rfl h
      · by_cases hc : c = '\\'
        · subst hc
          obtain _ | ⟨d, ds⟩ := cs
          · simp [scan, Ne.symm hq] at h
          · obtain ⟨body, z, rfl, hbody⟩ := further (y := ds) (by simp at hlen; omega) rfl
            exact ⟨'\\' :: d :: body, z, rfl, .pair d hbody⟩
        · by_cases hcq : c = q
          · exact ⟨[], cs, by rw [hcq, List.nil_append], .nil⟩
          · obtain ⟨body, z, rfl, hbody⟩ := further (y := cs) (by simp at hlen; omega)
              (by rw [scan_inner hc, if_neg hcq])
            exact ⟨c :: body, z, rfl, .char hcq hc hbody⟩

/-! ## Layout -/

/-- The text goes on with a space, or not at all. -/
abbrev Apart (k : List Char) : Prop := EndsClass (fun c => !Layout.isSpace c) k

/-- What stops layout does so whatever stands behind it. -/
theorem free_append {x k : List Char} (hx : Layout.Free x) (hne : x ≠ []) (hk : Apart k) :
    Layout.Free (x ++ k) := by
  obtain _ | ⟨c, cs⟩ := x
  · exact absurd rfl hne
  · refine ⟨hx.1, fun h => ?_⟩
    obtain ⟨rfl, hhead⟩ := h
    obtain _ | ⟨d, ds⟩ := cs
    · exact absurd (hk '/' hhead) (by decide)
    · exact hx.2 ⟨rfl, hhead⟩

theorem free_of_append {x k : List Char} (h : Layout.Free (x ++ k)) : Layout.Free x := by
  obtain _ | ⟨c, cs⟩ := x
  · trivial
  · refine ⟨h.1, fun hslash => h.2 ⟨hslash.1, ?_⟩⟩
    obtain ⟨ds, rfl⟩ := List.head?_eq_some_iff.1 hslash.2
    rfl

/-- The cursor behind the layout at `p`, where `p` is in a comment or among the words. -/
def pass (m : LexMode) (p : Position) (cs : List Char) : Cursor :=
  if m = .comment then Layout.skipComment p cs else Layout.skipFrom p cs

/-- What passing over the layout at the front of `x` comes to, whatever stands behind `x`. -/
inductive Passes (m : LexMode) (x : List Char) : Prop where
  /-- words of `x` are left, and a scan may begin with them -/
  | words {y : List Char} (hy : y ≠ [])
      (hscan : ∀ n l, scan ⟨m, n, l⟩ x = scan ⟨.code, n, l⟩ y)
      (hpass : ∀ k, Apart k → ∀ p, (pass m p (x ++ k)).rest = y ++ k)
  /-- all of `x` is layout, and the place behind it is among the words or in a comment -/
  | all {m' : LexMode} (hm' : m' = .code ∨ m' = .comment)
      (hscan : ∀ n l, scan ⟨m, n, l⟩ x = ⟨m', n, l⟩)
      (hpass : ∀ k p, ∃ p', pass m p (x ++ k) = pass m' p' k)

/-- Layout at the front leads to what is behind it. -/
theorem Passes.of_front {m m₁ : LexMode} {x x₁ : List Char} (h : Passes m₁ x₁)
    (hscan : ∀ n l, scan ⟨m, n, l⟩ x = scan ⟨m₁, n, l⟩ x₁)
    (hpass : ∀ k p, ∃ p', pass m p (x ++ k) = pass m₁ p' (x₁ ++ k)) : Passes m x := by
  cases h with
  | words hy hscan₁ hpass₁ =>
      refine .words hy (fun n l => (hscan n l).trans (hscan₁ n l)) fun k hk p => ?_
      obtain ⟨p', hp'⟩ := hpass k p
      rw [hp', hpass₁ k hk p']
  | all hm' hscan₁ hpass₁ =>
      refine .all hm' (fun n l => (hscan n l).trans (hscan₁ n l)) fun k p => ?_
      obtain ⟨p', hp'⟩ := hpass k p
      rw [hp']
      exact hpass₁ k p'

/-- **Passing over layout.** -/
theorem passes {m : LexMode} (hm : m = .code ∨ m = .comment) (x : List Char) : Passes m x := by
  induction hlen : x.length using Nat.strong_induction_on generalizing x m with
  | _ len ih =>
      have shorter {m : LexMode} (hm : m = .code ∨ m = .comment) (y : List Char)
          (hlt : y.length < x.length) : Passes m y := ih y.length (by omega) hm y rfl
      -- the scan and the layout take the same steps, in code as in a comment
      rcases hm with rfl | rfl
      · rcases Layout.free_or_layout x with hfree | ⟨c, cs, rfl, hc⟩ | ⟨cs, rfl⟩
        · by_cases hx : x = []
          · subst hx
            exact .all (.inl rfl) (fun n l => scan_nil _) fun k p => ⟨p, rfl⟩
          · refine .words hx (fun n l => rfl) fun k hk p => ?_
            show (Layout.skipFrom p (x ++ k)).rest = x ++ k
            rw [Layout.skipFrom_of_free (free_append hfree hx hk)]
        · refine (shorter (m := .code) (.inl rfl) cs (by simp)).of_front
            (fun n l => scan_space hc cs) fun k p => ⟨p.advance c, Layout.skipFrom_space hc p _⟩
        · have hcomment : Passes .comment cs :=
            shorter (.inr rfl) cs (by simp only [List.length_cons]; omega)
          exact hcomment.of_front (fun n l => by rw [scan]) fun k p =>
            ⟨_, Layout.skipFrom_comment p _⟩
      · obtain _ | ⟨c, cs⟩ := x
        · exact .all (.inr rfl) (fun n l => scan_nil _) fun k p => ⟨p, rfl⟩
        · by_cases hc : c = '\n'
          · refine (shorter (m := .code) (.inl rfl) cs (by simp)).of_front
              (fun n l => by rw [scan, if_pos hc]) fun k p => ⟨p.advance c, ?_⟩
            show Layout.skipComment p (c :: (cs ++ k)) = Layout.skipFrom (p.advance c) (cs ++ k)
            rw [Layout.skipComment, if_pos hc]
          · refine (shorter (m := .comment) (.inr rfl) cs (by simp)).of_front
              (fun n l => by rw [scan, if_neg hc]) fun k p => ⟨p.advance c, ?_⟩
            show Layout.skipComment p (c :: (cs ++ k)) = Layout.skipComment (p.advance c) (cs ++ k)
            rw [Layout.skipComment, if_neg hc]

/-- What is left behind layout does not depend on the position. -/
theorem skip_rest_eq {c c' : Cursor} (h : c.rest = c'.rest) :
    (Layout.skip c).rest = (Layout.skip c').rest := by
  obtain ⟨p, x⟩ := c
  obtain ⟨p', x'⟩ := c'
  obtain rfl : x = x' := h
  show (pass .code p x).rest = (pass .code p' x).rest
  rw [← List.append_nil x]
  cases passes (.inl rfl) x with
  | words _ _ hpass =>
      have hnil : Apart [] := by simp [Apart, EndsClass]
      rw [hpass [] hnil p, hpass [] hnil p']
  | all hm' _ hpass =>
      obtain ⟨q, hq⟩ := hpass [] p
      obtain ⟨q', hq'⟩ := hpass [] p'
      rw [hq, hq']
      rcases hm' with rfl | rfl <;> rfl

end Lexing

end ExprScript
