import ExprScript.Proofs.Scope.Numbering
import Mathlib.Data.List.Infix
import Mathlib.Data.List.Sort

set_option autoImplicit false

/-! # The places at which scopes are opened

A program opens a scope at its root and at each function below it. `Node.scopePlaces` lists the
addresses of these places in pre-order, that is, in the lexicographic order of addresses
(`sorted_scopePlaces`), and each of them once.

Around an address lie those places that are prefixes of it, and in pre-order they come before it,
from the outside in (`filter_isPrefixOf`).
-/

namespace ExprScript.Node

/-! ## The places of functions -/

mutual

/-- The addresses of the functions at and below a node, in pre-order. -/
def functionPlaces : Node → List (List Nat)
  | n@⟨_, _, children, _⟩ =>
    if n.isScopeForming then [] :: functionPlacesFrom 0 children
    else functionPlacesFrom 0 children

/-- The addresses of the functions at and below the children of a node, from the child number
`j` on. -/
def functionPlacesFrom (j : Nat) : List Node → List (List Nat)
  | [] => []
  | n :: ns => (functionPlaces n).map (j :: ·) ++ functionPlacesFrom (j + 1) ns

end

theorem functionPlaces_forming {n : Node} (h : n.isScopeForming) :
    n.functionPlaces = [] :: functionPlacesFrom 0 n.children := by
  cases n; rw [functionPlaces, if_pos h]

theorem functionPlaces_plain {n : Node} (h : ¬ n.isScopeForming) :
    n.functionPlaces = functionPlacesFrom 0 n.children := by
  cases n; rw [functionPlaces, if_neg h]

theorem length_functionPlaces_and :
    (∀ n : Node, n.functionPlaces.length = n.scopeCount) ∧
      ∀ (ns : List Node) (j : Nat), (functionPlacesFrom j ns).length = scopeCounts ns := by
  refine forestInduction (fun n ih => ?_) (fun j => rfl) (fun n ns ihn ihns j => ?_)
  · by_cases h : n.isScopeForming
    · rw [functionPlaces_forming h, scopeCount_forming h, List.length_cons, ih, Nat.add_comm]
    · rw [functionPlaces_plain h, scopeCount_plain h, ih]
  · rw [functionPlacesFrom, scopeCounts, List.length_append, List.length_map, ihn, ihns]

/-- A place below a node is a place in one of its children. -/
theorem exists_child_place {n : Node} {a : List Nat} :
    (∃ l b c m, a = (0 + l) :: b ∧ n.children[l]? = some c ∧ c.at? b = some m ∧
      m.isScopeForming) ↔ a ≠ [] ∧ ∃ m, n.at? a = some m ∧ m.isScopeForming := by
  constructor
  · rintro ⟨l, b, c, m, rfl, hc, hm, hforming⟩
    rw [Nat.zero_add]
    exact ⟨by simp, m, at?_cons_eq_some.mpr ⟨c, hc, hm⟩, hforming⟩
  · rintro ⟨hne, m, hm, hforming⟩
    obtain ⟨l, b, rfl⟩ := List.exists_cons_of_ne_nil hne
    obtain ⟨c, hc, hm'⟩ := at?_cons_eq_some.mp hm
    exact ⟨l, b, c, m, by rw [Nat.zero_add], hc, hm', hforming⟩

/-- The functions are those of the nodes of the tree that open a scope. -/
theorem functionPlaces_eq_and :
    (∀ n : Node, n.functionPlaces = (n.entries.filter (·.2.isScopeForming)).map Prod.fst) ∧
      ∀ (ns : List Node) (j : Nat), functionPlacesFrom j ns =
        ((entriesFrom j ns).filter (·.2.isScopeForming)).map Prod.fst := by
  refine forestInduction (fun n ih => ?_) (fun j => rfl) (fun n ns ihn ihns j => ?_)
  · rw [entries_eq]
    by_cases h : n.isScopeForming
    · rw [functionPlaces_forming h, ih 0]
      simp [h]
    · rw [functionPlaces_plain h, ih 0]
      simp [h]
  · rw [functionPlacesFrom, entriesFrom, List.filter_append, List.map_append, List.filter_map,
      List.map_map, ihn, ihns, List.map_map]
    rfl

/-- The places listed are those where a function stands. -/
theorem mem_functionPlacesFrom {ns : List Node} {j : Nat} {a : List Nat} :
    a ∈ functionPlacesFrom j ns ↔
      ∃ l b c m, a = (j + l) :: b ∧ ns[l]? = some c ∧ c.at? b = some m ∧ m.isScopeForming := by
  rw [functionPlaces_eq_and.2, List.mem_map]
  constructor
  · rintro ⟨⟨a, m⟩, he, rfl⟩
    obtain ⟨hmem, hforming⟩ := List.mem_filter.mp he
    obtain ⟨l, b, c, rfl, hc, hm⟩ := (mem_entries_and.2 _ _ _ _).mp hmem
    exact ⟨l, b, c, m, rfl, hc, hm, hforming⟩
  · rintro ⟨l, b, c, m, rfl, hc, hm, hforming⟩
    have hmem := (mem_entries_and.2 ns j _ m).mpr ⟨l, b, c, rfl, hc, hm⟩
    exact ⟨_, List.mem_filter.mpr ⟨hmem, hforming⟩, rfl⟩

/-- The places are listed in pre-order. -/
theorem sorted_functionPlacesFrom (ns : List Node) (j : Nat) :
    (functionPlacesFrom j ns).Pairwise (List.Lex (· < ·)) := by
  rw [functionPlaces_eq_and.2, List.pairwise_map]
  exact (sorted_entries_and.2 ns j).sublist List.filter_sublist

/-- The places at which the scopes of a program are opened: the root, and those of the functions
below it. -/
def scopePlaces (p : Node) : List (List Nat) := [] :: functionPlacesFrom 0 p.children

theorem mem_scopePlaces {p : Node} {a : List Nat} :
    a ∈ p.scopePlaces ↔ a = [] ∨ ∃ n, p.at? a = some n ∧ n.isScopeForming := by
  rw [scopePlaces, List.mem_cons]
  refine or_congr_right' fun ha => ?_
  rw [mem_functionPlacesFrom, exists_child_place]
  exact and_iff_right ha

theorem sorted_scopePlaces (p : Node) : p.scopePlaces.Pairwise (List.Lex (· < ·)) := by
  refine List.pairwise_cons.mpr ⟨fun a ha => ?_, sorted_functionPlacesFrom _ _⟩
  obtain ⟨l, b, c, m, rfl, -⟩ := mem_functionPlacesFrom.mp ha
  exact .nil

theorem nodup_scopePlaces (p : Node) : p.scopePlaces.Nodup := by
  refine (sorted_scopePlaces p).imp ?_
  rintro a _ h rfl
  exact List.lex_irrefl Nat.lt_irrefl _ h

/-! ## The innermost place around an address -/

/-- Of the places strictly around the address `a`, `b` is the innermost. -/
structure IsNearest (places : List (List Nat)) (b a : List Nat) : Prop where
  around : b <+: a
  ne : b ≠ a
  innermost : ∀ c ∈ places, c <+: a → c ≠ a → c <+: b

theorem prefix_of_prefix_concat {a c : List Nat} {j : Nat} (h : c <+: a ++ [j])
    (hne : c ≠ a ++ [j]) : c <+: a := by
  rcases List.prefix_concat_iff.mp h with heq | hc
  · exact absurd heq hne
  · exact hc

theorem isNearest_concat_self (places : List (List Nat)) (a : List Nat) (j : Nat) :
    IsNearest places a (a ++ [j]) :=
  ⟨List.prefix_append a [j], by simp, fun _ _ => prefix_of_prefix_concat⟩

/-- Where no scope is opened, nothing changes on the way to the children. -/
theorem IsNearest.concat {places : List (List Nat)} {a b : List Nat} (h : IsNearest places b a)
    (ha : a ∉ places) (j : Nat) : IsNearest places b (a ++ [j]) := by
  refine ⟨h.around.trans (List.prefix_append a [j]), ?_, fun c hc hca hne => ?_⟩
  · rintro rfl
    have hlength := h.around.length_le
    rw [List.length_append, List.length_singleton] at hlength
    omega
  · refine h.innermost c hc (prefix_of_prefix_concat hca hne) ?_
    rintro rfl
    exact ha hc

theorem not_lex_of_prefix {a c : List Nat} (h : c <+: a) : ¬ List.Lex (· < ·) a c := by
  obtain ⟨b, rfl⟩ := h
  induction c with
  | nil => simp
  | cons x c ih => simpa using ih

section Prefixes

variable {a : List Nat} {i : Nat} {places : List (List Nat)}
  (hsorted : places.Pairwise (List.Lex (· < ·))) (ha : places[i]? = some a)
include hsorted ha

/-- In a list of places in pre-order, nothing behind a place lies around it. -/
theorem filter_of_prefixes {q : List Nat → Bool} (hq : ∀ c, q c = true → c <+: a) :
    places.filter q = (places.take i).filter q ++ [a].filter q := by
  obtain ⟨hi, hget⟩ := List.getElem?_eq_some_iff.mp ha
  have hsplit : places = places.take i ++ ([a] ++ places.drop (i + 1)) := by
    rw [← hget, List.singleton_append, List.getElem_cons_drop, List.take_append_drop]
  have hafter : (places.drop (i + 1)).filter q = [] := by
    rw [List.filter_eq_nil_iff]
    intro c hc hqc
    refine not_lex_of_prefix (hq c hqc) ?_
    rw [hsplit, List.pairwise_append, List.singleton_append, List.pairwise_cons] at hsorted
    exact hsorted.2.1.1 c hc
  conv_lhs => rw [hsplit]
  rw [List.filter_append, List.filter_append, hafter, List.append_nil]

/-- A place comes last among those around it and itself, and the others are those around the
innermost of them and that one itself. -/
theorem filter_isPrefixOf {b : List Nat} (hb : IsNearest places b a) :
    places.filter (·.isPrefixOf a) = places.filter (·.isPrefixOf b) ++ [a] := by
  have hself : [a].filter (·.isPrefixOf a) = [a] := by simp
  have hnot : [a].filter (·.isPrefixOf b) = [] := by
    refine List.filter_eq_nil_iff.mpr fun c hc hcb => ?_
    obtain rfl := List.mem_singleton.mp hc
    have hle := (List.isPrefixOf_iff_prefix.mp hcb).length_le
    exact hb.ne (hb.around.eq_of_length_le hle)
  have hsame : (places.take i).filter (·.isPrefixOf a) =
      (places.take i).filter (·.isPrefixOf b) := by
    refine List.filter_congr fun c hc => ?_
    have hlex : List.Lex (· < ·) c a := by
      refine hsorted.rel_of_mem_take_of_mem_drop hc ?_
      rw [List.mem_iff_getElem?]
      exact ⟨0, by rw [List.getElem?_drop]; exact ha⟩
    rw [Bool.eq_iff_iff, List.isPrefixOf_iff_prefix, List.isPrefixOf_iff_prefix]
    refine ⟨fun hca => ?_, fun hcb => hcb.trans hb.around⟩
    refine hb.innermost c (List.mem_of_mem_take hc) hca ?_
    rintro rfl
    exact List.lex_irrefl Nat.lt_irrefl _ hlex
  rw [filter_of_prefixes hsorted ha fun c hc => List.isPrefixOf_iff_prefix.mp hc,
    filter_of_prefixes hsorted ha (q := (·.isPrefixOf b)) fun c hc =>
      (List.isPrefixOf_iff_prefix.mp hc).trans hb.around,
    hself, hnot, hsame, List.append_nil]

end Prefixes

end ExprScript.Node
