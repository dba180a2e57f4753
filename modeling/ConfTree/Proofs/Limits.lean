import ConfTree.Fault
import ConfTree.Limits

/-!
# Work under limits

Work that succeeds without limits has two outcomes under limits: its result, if
what it takes is within them, and otherwise a fault that blames a limit. This
module says so for one piece of work, and how two pieces are put together.
-/

namespace ConfTree

namespace Limits

theorem Within.refl (l : Limits) : l.Within l := by
  simp [Within]

theorem Within.trans {l m n : Limits} (h : l.Within m) (h' : m.Within n) : l.Within n := by
  unfold Within at *
  omega

end Limits

/-- `Limited fits a r`: the outcome `r` is the result `a` if `fits`, and a fault
that blames a limit if not. -/
structure Limited {α : Type} (fits : Prop) (a : α) (r : Except Fault α) : Prop where
  /-- What fits succeeds. -/
  eq_ok : fits → r = .ok a
  /-- What does not fit exceeds a limit. -/
  eq_error : ¬ fits → ∃ f, r = .error f ∧ f.kind = .limit

namespace Limited

variable {α β : Type} {fits fits' : Prop} {a : α} {b : β} {r : Except Fault α}

theorem of_fits (h : fits) : Limited fits a (.ok a) :=
  ⟨fun _ => rfl, fun hn => absurd h hn⟩

/-- Work that does succeed fits. -/
theorem fits_of_ok {a' : α} (h : Limited fits a (.ok a')) : fits := by
  refine Classical.byContradiction fun hn => ?_
  obtain ⟨f, hf, _⟩ := h.eq_error hn
  cases hf

theorem eq_ok_iff (h : Limited fits a r) : r = .ok a ↔ fits :=
  ⟨fun hr => fits_of_ok (hr ▸ h), h.eq_ok⟩

theorem congr (h : Limited fits a r) (hiff : fits ↔ fits') : Limited fits' a r :=
  ⟨fun hf => h.eq_ok (hiff.mpr hf), fun hn => h.eq_error fun hf => hn (hiff.mp hf)⟩

/-- A check in front of work that cannot fail otherwise. -/
theorem guard {f : Fault} {P : Prop} [Decidable P] (hf : f.kind = .limit)
    (h : Limited fits a r) : Limited (¬ P ∧ fits) a (if P then .error f else r) := by
  by_cases hP : P
  · rw [if_pos hP]
    exact ⟨fun hfits => absurd hP hfits.1, fun _ => ⟨f, rfl, hf⟩⟩
  · rw [if_neg hP]
    exact h.congr (by simp [hP])

/-- Two pieces of work, one after the other. -/
theorem bind {k : α → Except Fault β} (h : Limited fits a r) (h' : Limited fits' b (k a)) :
    Limited (fits ∧ fits') b (r >>= k) := by
  refine ⟨fun hf => ?_, fun hn => ?_⟩
  · rw [h.eq_ok hf.1]
    exact h'.eq_ok hf.2
  · by_cases hf : fits
    · rw [h.eq_ok hf]
      exact h'.eq_error fun hf' => hn ⟨hf, hf'⟩
    · obtain ⟨f, hr, hkind⟩ := h.eq_error hf
      exact ⟨f, by rw [hr]; rfl, hkind⟩

theorem map (g : α → β) (h : Limited fits a r) :
    Limited fits (g a) (r >>= fun a => pure (g a)) := by
  have hg : Limited True (g a) (pure (g a)) := of_fits trivial
  exact (h.bind hg).congr (by rw [and_true])

end Limited

end ConfTree
