import Mathlib.Tactic.Common

/-!
# Fields in a text

A printed text determines a field in it that ends where a character comes that the field cannot
contain. A line of such fields, with literal text between them, determines them all.
-/

namespace UnixProgramming

variable {α β : Type*} {print : α → List β} {p : β → Prop} {a b : α} {c : β} {r r' : List β}

/-- A value can be told from its characters, which are all of one kind. -/
structure Printable (print : α → List β) (p : β → Prop) : Prop where
  injective : Function.Injective print
  kind : ∀ a, ∀ c ∈ print a, p c

/-- Fields, each with the literal text behind it. -/
def fieldsText (print : α → List β) : List α → List (List β) → List β
  | a :: as, sep :: seps => print a ++ (sep ++ fieldsText print as seps)
  | _, _ => []

/-- A text ends at the first character of another kind. -/
theorem eq_of_append_cons {x y : List β} (hx : ∀ d ∈ x, p d) (hy : ∀ d ∈ y, p d) (hc : ¬p c)
    (heq : x ++ c :: r = y ++ c :: r') : x = y ∧ r = r' := by
  induction x generalizing y with
  | nil =>
    cases y with
    | nil => exact ⟨rfl, (List.cons.inj heq).2⟩
    | cons d y =>
      obtain ⟨rfl, -⟩ := List.cons.inj heq
      exact absurd (hy c (List.mem_cons_self)) hc
  | cons d x ih =>
    cases y with
    | nil =>
      obtain ⟨rfl, -⟩ := List.cons.inj heq
      exact absurd (hx d (List.mem_cons_self)) hc
    | cons e y =>
      obtain ⟨rfl, htail⟩ := List.cons.inj heq
      obtain ⟨rfl, hrest⟩ := ih (fun f hf => hx f (List.mem_cons_of_mem _ hf))
        (fun f hf => hy f (List.mem_cons_of_mem _ hf)) htail
      exact ⟨rfl, hrest⟩

theorem Printable.eq_of_append (hprint : Printable print p) (hc : ¬p c)
    (heq : print a ++ c :: r = print b ++ c :: r') : a = b ∧ r = r' := by
  obtain ⟨hsame, hrest⟩ := eq_of_append_cons (hprint.kind a) (hprint.kind b) hc heq
  exact ⟨hprint.injective hsame, hrest⟩

/-- Literal texts that each begin with a character of another kind determine the fields in front
of them. -/
theorem Printable.fields_eq {as bs : List α} {seps : List (List β)} (hprint : Printable print p)
    (hseps : ∀ sep ∈ seps, ∃ c, sep.head? = some c ∧ ¬p c) (has : as.length = seps.length)
    (hbs : bs.length = seps.length)
    (heq : fieldsText print as seps ++ r = fieldsText print bs seps ++ r') :
    as = bs ∧ r = r' := by
  induction seps generalizing as bs with
  | nil =>
    obtain rfl := List.eq_nil_of_length_eq_zero has
    obtain rfl := List.eq_nil_of_length_eq_zero hbs
    exact ⟨rfl, heq⟩
  | cons sep seps ih =>
    obtain ⟨a, as, rfl⟩ := List.exists_cons_of_length_eq_add_one has
    obtain ⟨b, bs, rfl⟩ := List.exists_cons_of_length_eq_add_one hbs
    obtain ⟨c, hhead, hc⟩ := hseps sep List.mem_cons_self
    obtain ⟨rest, rfl⟩ : ∃ rest, sep = c :: rest := by
      cases sep with
      | nil => simp at hhead
      | cons d rest => exact ⟨rest, by simpa using hhead⟩
    simp only [fieldsText, List.append_assoc, List.cons_append] at heq
    obtain ⟨rfl, hrest⟩ := hprint.eq_of_append hc heq
    obtain ⟨rfl, hr⟩ := ih (fun s hs => hseps s (List.mem_cons_of_mem _ hs)) (by simpa using has)
      (by simpa using hbs) (List.append_cancel_left hrest)
    exact ⟨rfl, hr⟩

end UnixProgramming
