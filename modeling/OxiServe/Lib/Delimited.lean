import Mathlib.Data.List.Basic
import Mathlib.Data.Nat.Notation

/-! # Text cut at a separator

A separator is a nonempty word. Text is cut at its first occurrence, or at every
occurrence from the left. Lines that do not contain the first letter of the
separator are recovered from their concatenation.
-/
namespace OxiServe.Delimited
variable {α : Type*} [DecidableEq α]

/-- What stands before and after the first separator. -/
def cut (d : List α) : List α → Option (List α × List α)
  | [] => none
  | a :: r =>
    if d.isPrefixOf (a :: r) then some ([],(a :: r).drop d.length)
    else (cut d r).map (fun p => (a :: p.1,p.2))

def piecesFrom (d : List α) : ℕ → List α → List (List α)
  | 0, s => [s]
  | fuel + 1, s =>
    match cut d s with
    | none => [s]
    | some (l,r) => l :: piecesFrom d fuel r

/-- The pieces between separators, one more than there are separators. -/
def pieces (d s : List α) : List (List α) := piecesFrom d s.length s

section Recover
variable {c : α} {d : List α}

theorem cut_append {x : List α} (r : List α) (hx : c ∉ x) : cut (c :: d) (x ++ (c :: d ++ r)) = some (x,r) := by
  induction x with
  | nil => simp [cut]
  | cons a x ih =>
    have ha : c ≠ a := fun h => hx (h ▸ List.mem_cons_self)
    have hi := ih (fun h => hx (List.mem_cons_of_mem _ h))
    have hp : (c :: d).isPrefixOf (a :: (x ++ (c :: d ++ r))) = false := by
      simp only [List.isPrefixOf,beq_false_of_ne ha,Bool.false_and]
    rw [List.cons_append,cut,hp,hi]
    rfl

theorem piecesFrom_nil (fuel : ℕ) : piecesFrom d fuel [] = [[]] := by
  cases fuel with
  | zero => rfl
  | succ fuel => rfl

theorem piecesFrom_lines {fuel : ℕ} {ls : List (List α)} (hf : ls.length ≤ fuel) (h : ∀ l ∈ ls, c ∉ l) :
    piecesFrom (c :: d) fuel (ls.flatMap (fun l => l ++ c :: d)) = ls ++ [[]] := by
  induction ls generalizing fuel with
  | nil => exact piecesFrom_nil fuel
  | cons l ls ih =>
    cases fuel with
    | zero => simp at hf
    | succ fuel =>
      have hc := cut_append (d := d) (ls.flatMap (fun l => l ++ c :: d)) (h l List.mem_cons_self)
      have hi := ih (Nat.le_of_succ_le_succ hf) (fun m hm => h m (List.mem_cons_of_mem _ hm))
      rw [List.flatMap_cons,List.append_assoc,piecesFrom,hc]
      exact congrArg (l :: ·) hi

theorem pieces_lines {ls : List (List α)} (h : ∀ l ∈ ls, c ∉ l) :
    pieces (c :: d) (ls.flatMap (fun l => l ++ c :: d)) = ls ++ [[]] := by
  apply piecesFrom_lines _ h
  clear h
  induction ls with
  | nil => exact Nat.zero_le _
  | cons l ls ih =>
    rw [List.flatMap_cons]
    simp only [List.length_append,List.length_cons] at ih ⊢
    omega

/-- Each line adds its own separators and the one behind it. -/
theorem count_lines (c : α) (ls : List (List α)) :
    (ls.flatMap (fun l => l ++ [c])).count c = ls.flatten.count c + ls.length := by
  induction ls with
  | nil => rfl
  | cons l ls ih =>
    rw [List.flatMap_cons,List.count_append,ih,List.count_append,List.count_singleton_self,List.flatten_cons,
      List.count_append,List.length_cons]
    omega

/-- Lines are the only ones of their number with that concatenation. -/
theorem lines_unique {ls ms : List (List α)} (h : ∀ l ∈ ls, c ∉ l) (hlen : ms.length = ls.length)
    (he : ms.flatMap (fun l => l ++ [c]) = ls.flatMap (fun l => l ++ [c])) : ms = ls := by
  have hls : ls.flatten.count c = 0 := by
    rw [List.count_eq_zero]
    intro hm
    obtain ⟨l,hl,hc⟩ := List.mem_flatten.mp hm
    exact h l hl hc
  have hcount := congrArg (List.count c) he
  rw [count_lines,count_lines,hls,hlen] at hcount
  have hms : ∀ m ∈ ms, c ∉ m := by
    intro m hm hc
    have hz : ms.flatten.count c = 0 := by omega
    exact List.count_eq_zero.mp hz (List.mem_flatten.mpr ⟨m,hm,hc⟩)
  have hp := congrArg (pieces [c]) he
  rw [pieces_lines hms,pieces_lines h] at hp
  exact List.append_cancel_right hp

end Recover

end OxiServe.Delimited
