import Mathlib.Data.List.Basic

/-! # Queues that grow by elements of one kind

A queue that is only appended to, and only with elements that have a property.
-/
namespace OxiServe
variable {α : Type*} {p q : α → Prop} {xs ys zs : List α}

/-- `ys` is `xs` and some elements with the property behind it. -/
def Appends (p : α → Prop) (xs ys : List α) : Prop := ∃ new, ys = xs ++ new ∧ ∀ a ∈ new, p a

namespace Appends

theorem refl (h : ys = xs) : Appends p xs ys := ⟨[],by rw [h,List.append_nil],nofun⟩

theorem one {a : α} (h : p a) (hy : ys = xs ++ [a]) : Appends p xs ys := by
  refine ⟨[a],hy,fun x hx => ?_⟩
  rw [List.mem_singleton.mp hx]
  exact h

theorem trans (h : Appends p xs ys) (h' : Appends p ys zs) : Appends p xs zs := by
  obtain ⟨as,ha,hpa⟩ := h
  obtain ⟨bs,hb,hpb⟩ := h'
  exact ⟨as ++ bs,by rw [hb,ha,List.append_assoc],List.forall_mem_append.mpr ⟨hpa,hpb⟩⟩

theorem mono (h : Appends p xs ys) (hpq : ∀ a, p a → q a) : Appends q xs ys := by
  obtain ⟨new,hy,hp⟩ := h
  exact ⟨new,hy,fun a ha => hpq a (hp a ha)⟩

end Appends

end OxiServe
