import ExprScript.Proofs.Grammar.Literals
import ExprScript.Proofs.Raw.Leaves

set_option autoImplicit false

/-! # Reading a quoted value back

A value is read from the left in units: a backslash and the character behind it are one, any other
character is one by itself. Quoting works on units one at a time (`quoteChars_spellAll`): a single
quote and a line feed that are units become pairs, every other unit is copied. A pair stays a pair
when it is quoted again, so a second quoting changes nothing.

The string rule of the grammar reads the same units. It stops at a quote that is a unit, and after
quoting there is none but the last (`quote_reads_back`). A value that ends in the middle of a unit
takes the last quote into this unit (`string_closes_iff`).
-/

namespace ExprScript

open Grammar

/-! ## Units -/

/-- One step of reading a value from the left. -/
inductive StringUnit where
  /-- a character that stands for itself -/
  | plain (c : Char)
  /-- a backslash and the character behind it -/
  | pair (c : Char)
deriving Repr, DecidableEq

namespace StringUnit

def spell : StringUnit → List Char
  | plain c => [c]
  | pair c => ['\\', c]

def spellAll (us : List StringUnit) : List Char := us.flatMap spell

/-- A unit as it is written between single quotes. -/
def requoted : StringUnit → StringUnit
  | plain c => if c = '\'' then pair '\'' else if c = '\n' then pair 'n' else plain c
  | pair c => pair c

theorem spellAll_cons (u : StringUnit) (us : List StringUnit) :
    spellAll (u :: us) = u.spell ++ spellAll us := rfl

theorem requoted_requoted (u : StringUnit) : u.requoted.requoted = u.requoted := by
  cases u with
  | pair c => rfl
  | plain c =>
      by_cases hquote : c = '\''
      · subst hquote
        rfl
      · by_cases hfeed : c = '\n'
        · subst hfeed
          rfl
        · have hself : (plain c).requoted = plain c := by simp [requoted, hquote, hfeed]
          rw [hself, hself]

/-- A backslash that has a character behind it still has one between quotes. -/
theorem requoted_ne_backslash {u : StringUnit} (h : u ≠ plain '\\') :
    u.requoted ≠ plain '\\' := by
  cases u with
  | pair c => simp [requoted]
  | plain c =>
      simp only [requoted]
      split
      · simp
      · split
        · simp
        · exact h

theorem backslash_notMem_requoted {us : List StringUnit} (h : plain '\\' ∉ us) :
    plain '\\' ∉ us.map requoted := by
  intro hmem
  obtain ⟨u, hu, heq⟩ := List.mem_map.1 hmem
  exact requoted_ne_backslash (fun hback => h (hback ▸ hu)) heq

end StringUnit

open StringUnit

/-- Every text can be read in units up to a backslash that has nothing behind it. -/
theorem exists_units (v : List Char) :
    ∃ us, plain '\\' ∉ us ∧ v = spellAll us ++ if paired v then [] else ['\\'] := by
  fun_induction paired v with
  | case1 => exact ⟨[], List.not_mem_nil, rfl⟩
  | case2 => exact ⟨[], List.not_mem_nil, rfl⟩
  | case3 x cs ih =>
      obtain ⟨us, hus, hcs⟩ := ih
      exact ⟨pair x :: us, by simp [hus], congrArg (fun t => '\\' :: x :: t) hcs⟩
  | case4 x cs hlone hpair ih =>
      have hback : x ≠ '\\' := by
        intro hx
        cases cs with
        | nil => exact hlone hx rfl
        | cons y ys => exact hpair y ys hx rfl
      obtain ⟨us, hus, hcs⟩ := ih
      exact ⟨plain x :: us, by simp [hus, hback.symm], congrArg (x :: ·) hcs⟩

/-- **The backslashes of a text are paired when it can be read in units.** -/
theorem paired_iff_exists_units {v : List Char} :
    paired v = true ↔ ∃ us, plain '\\' ∉ us ∧ v = spellAll us := by
  constructor
  · intro h
    obtain ⟨us, hus, hv⟩ := exists_units v
    rw [h, if_pos rfl, List.append_nil] at hv
    exact ⟨us, hus, hv⟩
  · rintro ⟨us, hus, rfl⟩
    induction us with
    | nil => rfl
    | cons u us ih =>
        obtain ⟨hu, hrest⟩ := not_or.1 (List.mem_cons.not.1 hus)
        cases u with
        | pair x => exact ih hrest
        | plain x =>
            have hback : x ≠ '\\' := fun hx => hu (hx ▸ rfl)
            exact (paired_cons hback _).trans (ih hrest)

/-! ## Quoting by units -/

theorem quoteChars_pair (x : Char) (cs : List Char) :
    quoteChars ('\\' :: x :: cs) = '\\' :: x :: quoteChars cs := by
  rw [quoteChars]

theorem quoteChars_plain {x : Char} (hback : x ≠ '\\') (cs : List Char) :
    quoteChars (x :: cs) = (plain x).requoted.spell ++ quoteChars cs := by
  by_cases hquote : x = '\''
  · subst hquote
    rw [quoteChars]
    rfl
  · by_cases hfeed : x = '\n'
    · subst hfeed
      rw [quoteChars]
      rfl
    · rw [quoteChars.eq_def]
      simp [requoted, spell, hback, hquote, hfeed]

/-- Quoting goes unit by unit. -/
theorem quoteChars_spellAll_append {us : List StringUnit} (h : plain '\\' ∉ us) (cs : List Char) :
    quoteChars (spellAll us ++ cs) = spellAll (us.map requoted) ++ quoteChars cs := by
  induction us with
  | nil => rfl
  | cons u us ih =>
      obtain ⟨hu, hus⟩ := not_or.1 (List.mem_cons.not.1 h)
      rw [List.map_cons, spellAll_cons, spellAll_cons, List.append_assoc, List.append_assoc,
        ← ih hus]
      cases u with
      | pair x => exact quoteChars_pair x _
      | plain x => exact quoteChars_plain (fun hx => hu (hx ▸ rfl)) _

theorem quoteChars_spellAll {us : List StringUnit} (h : plain '\\' ∉ us) :
    quoteChars (spellAll us) = spellAll (us.map requoted) := by
  have hunits := quoteChars_spellAll_append h []
  rwa [quoteChars, List.append_nil, List.append_nil] at hunits

/-- **What has been quoted is quoted as it is.** -/
theorem quoteChars_quoteChars {v : List Char} (h : paired v = true) :
    quoteChars (quoteChars v) = quoteChars v := by
  obtain ⟨us, hus, rfl⟩ := paired_iff_exists_units.1 h
  have hunits : (us.map requoted).map requoted = us.map requoted := by
    rw [List.map_map]
    exact List.map_congr_left fun u _ => requoted_requoted u
  calc quoteChars (quoteChars (spellAll us))
      = quoteChars (spellAll (us.map requoted)) := by rw [quoteChars_spellAll hus]
    _ = spellAll ((us.map requoted).map requoted) :=
        quoteChars_spellAll (backslash_notMem_requoted hus)
    _ = spellAll (us.map requoted) := by rw [hunits]
    _ = quoteChars (spellAll us) := (quoteChars_spellAll hus).symm

/-! ## Reading back -/

/-- The fuel of a program is enough for a string as well. -/
theorem eval_string_eq_run (cs : List Char) :
    programGrammar.eval (programFuel cs.length) .spaced (.call .string) (.start cs) =
      programGrammar.run .spaced (.call .string) (.start cs) := by
  refine (run_eq_eval (programRanking.eval_ne_exhausted rfl ?_)).symm
  show 64 * cs.length + (1 + Rule.bodyDepth .string) ≤ 64 * (cs.length + 1)
  simp only [Rule.bodyDepth]
  omega

/-- The value of a string in a program is paired, whichever quotes it was written in. -/
theorem exists_paired_of_parse {source : String} {raw m : RawNode} {a : List Nat}
    (h : parse source = .ok raw) (hm : raw.at? a = some m) (ht : m.tag = NodeType.string.tag) :
    ∃ v, m.value = some (.string v) ∧ paired v.toList = true := by
  obtain ⟨t, htag, hcopies⟩ := (says_of_parse h).at? hm
  obtain rfl := NodeType.tag_inj.1 (ht.symm.trans htag)
  obtain ⟨q, content, -, -, hquoted, hvalue⟩ := hcopies
  refine ⟨_, hvalue, ?_⟩
  rw [String.toList_ofList]
  exact paired_of_quoted hquoted

/-- **A quoted value is read back as a string, and quoted again it is the same.** This is said of
every value whose backslashes are paired, and the values of strings in programs are such. The string
rule takes the whole quoted value. Its content is the value with every quote and every line feed
that is a unit written as a pair and all other units as they are. -/
theorem quote_reads_back :
    (∀ (source : String) (raw m : RawNode) (a : List Nat), parse source = .ok raw →
      raw.at? a = some m → m.tag = NodeType.string.tag →
      ∃ v, m.value = some (.string v) ∧ paired v.toList = true) ∧
    ∀ v : String, paired v.toList = true →
      ∃ units content span, plain '\\' ∉ units ∧ v.toList = spellAll units ∧
        content = spellAll (units.map requoted) ∧
        programGrammar.eval (programFuel (quote v).toList.length) .spaced (.call .string)
            (.start (quote v).toList) =
          .ok ⟨Position.first.after (quote v).toList, []⟩
            [.node .string ⟨.first, Position.first.after (quote v).toList⟩ (quote v).toList
              [.node .singleQuoted span content []]] ∧
        quote (String.ofList content) = quote v := by
  refine ⟨fun source raw m a h hm ht => exists_paired_of_parse h hm ht, fun v hv => ?_⟩
  obtain ⟨units, hunits, hspell⟩ := paired_iff_exists_units.1 hv
  have hcontent : quoteChars v.toList = spellAll (units.map requoted) := by
    rw [hspell, quoteChars_spellAll hunits]
  obtain ⟨span, hrun⟩ := Rule.run_string (p := .first) (k := []) (.inl rfl)
    (Rule.quoted_quoteChars hv) (s := .spaced) (by decide)
  refine ⟨units, quoteChars v.toList, span, hunits, hspell, hcontent, ?_, ?_⟩
  · rw [eval_string_eq_run, quote, String.toList_ofList]
    rw [List.append_nil] at hrun
    exact hrun
  · rw [quote, quote, String.toList_ofList, quoteChars_quoteChars hv]

/-- A value with three backslashes before a quote, and with quotes and line feeds both as units and
behind a backslash. -/
theorem quote_reads_back_mixed :
    ∃ raw m v, parse "\"\\\\\\'x'\n\\\n\\\"\"" = .ok raw ∧ raw.at? [0] = some m ∧
      m.tag = NodeType.string.tag ∧ m.value = some (.string v) ∧ paired v.toList = true ∧
      ∃ units content span, plain '\\' ∉ units ∧ v.toList = spellAll units ∧
        content = spellAll (units.map requoted) ∧
        programGrammar.eval (programFuel (quote v).toList.length) .spaced (.call .string)
            (.start (quote v).toList) =
          .ok ⟨Position.first.after (quote v).toList, []⟩
            [.node .string ⟨.first, Position.first.after (quote v).toList⟩ (quote v).toList
              [.node .singleQuoted span content []]] ∧
        quote (String.ofList content) = quote v := by
  obtain ⟨raw, hparse, htest⟩ := exists_raw_of_any "\"\\\\\\'x'\n\\\n\\\"\""
    (fun raw => (raw.at? [0]).any (·.tag == NodeType.string.tag)) (by decide +kernel)
  obtain ⟨m, hm, hmtag⟩ := (Option.any_eq_true _ _).1 htest
  have hmtag : m.tag = NodeType.string.tag := beq_iff_eq.1 hmtag
  obtain ⟨v, hvalue, hpaired⟩ := quote_reads_back.1 _ raw m [0] hparse hm hmtag
  exact ⟨raw, m, v, hparse, hm, hmtag, hvalue, hpaired, quote_reads_back.2 v hpaired⟩

/-! ## Where a quoted value ends

A value from the grammar is paired, but a value in a raw tree that another parser has made may be any
text. What decides is the number of backslashes at its end. -/

theorem paired_concat (cs : List Char) (x : Char) :
    paired (cs ++ [x]) = if x = '\\' then !paired cs else true := by
  fun_induction paired cs with
  | case1 =>
      by_cases hx : x = '\\'
      · subst hx
        rfl
      · rw [if_neg hx]
        exact paired_cons hx []
  | case2 =>
      by_cases hx : x = '\\' <;> simp [paired, hx]
  | case3 y cs ih => exact ih
  | case4 y cs hlone hpair ih =>
      have hback : y ≠ '\\' := by
        intro hy
        cases cs with
        | nil => exact hlone hy rfl
        | cons z zs => exact hpair z zs hy rfl
      rw [List.cons_append, paired_cons hback, ih]

def trailingBackslashes (cs : List Char) : Nat := (cs.reverse.takeWhile (· = '\\')).length

/-- **The backslashes of a text are paired when there is an even number of them at its end.** -/
theorem paired_iff_even (cs : List Char) : paired cs = true ↔ trailingBackslashes cs % 2 = 0 := by
  induction cs using List.reverseRecOn with
  | nil => simp [paired, trailingBackslashes]
  | append_singleton cs x ih =>
      rw [paired_concat]
      by_cases hx : x = '\\'
      · have hone : trailingBackslashes (cs ++ [x]) = trailingBackslashes cs + 1 := by
          simp [trailingBackslashes, hx]
        rw [if_pos hx, hone, Bool.not_eq_true', ← Bool.not_eq_true, ih]
        omega
      · have hnone : trailingBackslashes (cs ++ [x]) = 0 := by simp [trailingBackslashes, hx]
        rw [if_neg hx, hnone]
        simp

/-- What follows a string, given what follows the quote that begins it: the scanner stops at the
first quote, and a backslash takes the next character along. -/
def behindString? : List Char → Option (List Char)
  | [] => none
  | ['\\'] => none
  | '\\' :: _ :: cs => behindString? cs
  | '\'' :: cs => some cs
  | _ :: cs => behindString? cs

/-- Units that are not a quote are passed over. -/
theorem behindString?_spellAll_append {us : List StringUnit} (hback : plain '\\' ∉ us)
    (hquote : plain '\'' ∉ us) (cs : List Char) :
    behindString? (spellAll us ++ cs) = behindString? cs := by
  induction us with
  | nil => rfl
  | cons u us ih =>
      obtain ⟨hu, hus⟩ := not_or.1 (List.mem_cons.not.1 hback)
      obtain ⟨hu', hus'⟩ := not_or.1 (List.mem_cons.not.1 hquote)
      rw [← ih hus hus', spellAll_cons, List.append_assoc]
      cases u with
      | pair x =>
          show behindString? ('\\' :: x :: (spellAll us ++ cs)) = _
          rw [behindString?]
      | plain x =>
          have hx : x ≠ '\\' := fun hx => hu (hx ▸ rfl)
          have hx' : x ≠ '\'' := fun hx => hu' (hx ▸ rfl)
          show behindString? (x :: _) = _
          rw [behindString?.eq_def]
          simp [hx]

theorem quote_notMem_requoted (us : List StringUnit) : plain '\'' ∉ us.map requoted := by
  intro hmem
  obtain ⟨u, -, heq⟩ := List.mem_map.1 hmem
  cases u with
  | pair c => cases heq
  | plain c =>
      simp only [requoted] at heq
      split at heq
      · cases heq
      · split at heq
        · cases heq
        · rename_i hquote _
          exact hquote (plain.inj heq)

/-- **Where a quoted value ends.** Behind a paired value the scanner stops at the quote that was put
there. Any other value ends in a backslash that takes this quote along, and the scanner goes on. -/
theorem behindString?_quoteChars (v behind : List Char) :
    behindString? (quoteChars v ++ '\'' :: behind) =
      if paired v then some behind else behindString? behind := by
  obtain ⟨us, hus, hv⟩ := exists_units v
  have hcontent : quoteChars v =
      spellAll (us.map requoted) ++ if paired v then [] else ['\\'] := by
    conv_lhs => rw [hv]
    rw [quoteChars_spellAll_append hus]
    cases paired v <;> rfl
  rw [hcontent, List.append_assoc,
    behindString?_spellAll_append (backslash_notMem_requoted hus) (quote_notMem_requoted us)]
  cases paired v <;> rfl

/-- **Strings of any raw tree.** A string that a build returns is written as its quoted value,
whatever tree it comes from. It ends with the quote that was put behind the value exactly when there
is an even number of backslashes at the end of the value. Otherwise it goes on through what
follows, up to the first quote there. -/
theorem string_closes_iff {tree : RawTree} {p m : Node} {a : List Nat} {v : String}
    (hbuild : Node.buildTree tree = .ok p) (hm : p.at? a = some m) (hv : m.kind = .string v)
    (indent : String) :
    ∃ q content, m.render? indent = some q ∧ q.text = quote v ∧
      (quote v).toList = '\'' :: (content ++ ['\'']) ∧
      ∀ behind, behindString? (content ++ '\'' :: behind) =
        if trailingBackslashes v.toList % 2 = 0 then some behind else behindString? behind := by
  have hshaped : m.Shaped := (Node.shaped_of_buildTree hbuild).at? hm
  obtain ⟨q, hq⟩ := Node.exists_render_of_shaped hshaped indent
  refine ⟨q, quoteChars v.toList, hq, ?_, ?_, fun behind => ?_⟩
  · obtain ⟨ps, text, -, htext, rfl⟩ := Node.render?_eq_some_iff.1 hq
    rw [hv] at htext
    exact (Option.some.inj htext).symm
  · rw [quote, String.toList_ofList]
    rfl
  · rw [behindString?_quoteChars]
    exact if_congr (paired_iff_even v.toList) rfl rfl

/-- The raw tree of a string with the given value, without a place in a text. -/
def RawNode.ofString (v : String) : RawNode :=
  { ofType .string [] .empty with value := some (.string v) }

/-- A quote and three backslashes in an array, in a list of statements. -/
theorem string_closes_iff_threeBackslashes :
    ∃ p m, Node.buildTree (.nodes [.ofType .array [.ofString "'\\\\\\"] .empty]) = .ok p ∧
      p.at? [0, 0] = some m ∧ m.kind = .string "'\\\\\\" ∧
      trailingBackslashes "'\\\\\\".toList = 3 ∧
      ∃ q content, m.render? defaultIndent = some q ∧ q.text = quote "'\\\\\\" ∧
        (quote "'\\\\\\").toList = '\'' :: (content ++ ['\'']) ∧
        ∀ behind, behindString? (content ++ '\'' :: behind) =
          if trailingBackslashes "'\\\\\\".toList % 2 = 0 then some behind
          else behindString? behind := by
  obtain ⟨p, m, hbuild, hm, hv⟩ : ∃ p m,
      Node.buildTree (.nodes [.ofType .array [.ofString "'\\\\\\"] .empty]) = .ok p ∧
      p.at? [0, 0] = some m ∧ m.kind = .string "'\\\\\\" := ⟨_, _, rfl, rfl, rfl⟩
  exact ⟨p, m, hbuild, hm, hv, by decide, string_closes_iff hbuild hm hv defaultIndent⟩

/-- A string that ends in a backslash before another one: the first string goes on up to the quote
that should begin the second. -/
theorem string_runs_on :
    ∃ p m, Node.buildTree (.nodes [.ofString "a\\", .ofString "b"]) = .ok p ∧
      p.at? [0] = some m ∧ m.kind = .string "a\\" ∧ quote "a\\" = "'a\\'" ∧
      behindString? "a\\'".toList = none ∧
      generate? defaultIndent p = some "'a\\'\n'b'" ∧
      behindString? "a\\'\n'b'".toList = some "b'".toList :=
  ⟨_, _, rfl, rfl, rfl, rfl, rfl, rfl, rfl⟩

end ExprScript
