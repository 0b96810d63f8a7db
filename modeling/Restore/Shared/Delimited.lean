import Mathlib.Data.List.Basic

/-! # Texts that say where they end

A rendering is delimited if the text shows what was rendered, and where it ends, whatever comes
behind it. Pieces of this kind can be put in a row and still be told apart. -/

namespace Restore

/-- Of two texts that begin with a rendered value, the values agree in `key`, and so does the
rest. -/
def Delimited {α κ γ : Type*} (f : α → List γ) (key : α → κ) : Prop :=
  ∀ (a b : α) (r s : List γ), f a ++ r = f b ++ s → key a = key b ∧ r = s

namespace Delimited

variable {α β κ κ' γ : Type*} {f g : α → List γ} {key : α → κ} {key' : α → κ'}

theorem const (word : List γ) : Delimited (fun _ : α => word) fun _ => () :=
  fun _ _ _ _ h => ⟨rfl, List.append_cancel_left h⟩

/-- A text that ends at the first symbol of its kind. -/
theorem terminated {stop : γ} (hstop : ∀ a, stop ∉ f a) (hkey : ∀ a b, f a = f b → key a = key b) :
    Delimited (fun a => f a ++ [stop]) key := by
  -- the shorter of two such texts would put its end into the longer one
  have hends (t u r s : List γ) (ht : stop ∉ t) (hu : stop ∉ u)
      (h : t ++ stop :: r = u ++ stop :: s) : t = u ∧ r = s := by
    induction t generalizing u with
    | nil =>
        cases u with
        | nil => exact ⟨rfl, (List.cons.inj h).2⟩
        | cons x u => exact absurd ((List.cons.inj h).1 ▸ List.mem_cons_self) hu
    | cons x t ih =>
        cases u with
        | nil => exact absurd ((List.cons.inj h).1 ▸ List.mem_cons_self) ht
        | cons y u =>
            obtain ⟨rfl, htail⟩ := List.cons.inj h
            rw [List.mem_cons, not_or] at ht hu
            obtain ⟨rfl, rfl⟩ := ih u ht.2 hu.2 htail
            exact ⟨rfl, rfl⟩
  intro a b r s h
  rw [List.append_assoc, List.append_assoc] at h
  obtain ⟨htext, hrest⟩ := hends _ _ _ _ (hstop a) (hstop b) h
  exact ⟨hkey a b htext, hrest⟩

theorem append (hf : Delimited f key) (hg : Delimited g key') :
    Delimited (fun a => f a ++ g a) fun a => (key a, key' a) := by
  intro a b r s h
  rw [List.append_assoc, List.append_assoc] at h
  obtain ⟨hkey, hrest⟩ := hf a b _ _ h
  obtain ⟨hkey', hrest'⟩ := hg a b _ _ hrest
  exact ⟨Prod.ext hkey hkey', hrest'⟩

theorem comp (hf : Delimited f key) (part : β → α) :
    Delimited (fun b => f (part b)) fun b => key (part b) :=
  fun a b => hf (part a) (part b)

/-- A whole sequence of such texts is told apart. -/
theorem forall₂_of_flatMap_eq (hf : Delimited f key) (hne : ∀ a, f a ≠ []) {as bs : List α}
    (h : as.flatMap f = bs.flatMap f) : List.Forall₂ (fun a b => key a = key b) as bs := by
  induction as generalizing bs with
  | nil =>
      cases bs with
      | nil => exact .nil
      | cons b bs => exact absurd (List.append_eq_nil_iff.mp h.symm).1 (hne b)
  | cons a as ih =>
      cases bs with
      | nil => exact absurd (List.append_eq_nil_iff.mp h).1 (hne a)
      | cons b bs =>
          obtain ⟨hkey, hrest⟩ := hf a b _ _ h
          exact .cons hkey (ih hrest)

end Delimited

end Restore
