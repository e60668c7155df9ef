import OxiServe.Http2.Huffman
import OxiServe.Lib.PrefixCode
import Mathlib.Data.List.Nodup

/-! # The decoding tree spells the code table

Inserting a word adds the nodes of its path and one mark, and leaves every
other walk as it was. The tree built from the table therefore carries a symbol
exactly at the ends of the table's words.
-/
namespace OxiServe.Huffman
open PrefixCode

def childOf (nodes : List Node) (i : ℕ) (bit : Bool) : Option ℕ := (nodes.getD i .leaf).child bit

def symbolOf (nodes : List Node) (i : ℕ) : Option ℕ := (nodes.getD i .leaf).symbol

@[simp] theorem Node.child_setChild (n : Node) (b c : Bool) (i : ℕ) :
    (n.setChild b i).child c = if c = b then some i else n.child c := by
  cases b <;> cases c <;> rfl

@[simp] theorem Node.symbol_setChild (n : Node) (b : Bool) (i : ℕ) : (n.setChild b i).symbol = n.symbol := by
  cases b <;> rfl

theorem getD_modify (nodes : List Node) (cur i : ℕ) (f : Node → Node) :
    (nodes.modify cur f).getD i .leaf =
      if i = cur ∧ i < nodes.length then f (nodes.getD i .leaf) else nodes.getD i .leaf := by
  simp only [List.getD_eq_getElem?_getD,List.getElem?_modify]
  by_cases hi : i < nodes.length
  · rw [List.getElem?_eq_getElem hi]
    by_cases hc : cur = i
    · simp [hc,hi]
    · simp [hc,Ne.symm hc]
  · simp [hi]

theorem getD_grow (nodes : List Node) (i : ℕ) : (nodes ++ [Node.leaf]).getD i .leaf = nodes.getD i .leaf := by
  simp only [List.getD_eq_getElem?_getD]
  rcases Nat.lt_trichotomy i nodes.length with hi | rfl | hi
  · rw [List.getElem?_append_left hi]
  · simp
  · rw [List.getElem?_append_right (by omega),List.getElem?_eq_none (l := nodes) (by omega)]
    rw [List.getElem?_eq_none (by simp; omega)]

/-- A tree whose children are nodes of the table. -/
structure Sound (nodes : List Node) : Prop extends Rooted (childOf nodes) where
  bounded {i j : ℕ} {b : Bool} : childOf nodes i b = some j → j < nodes.length

section Graft
variable {nodes : List Node} {cur : ℕ} {bit : Bool}

/-- The table with one more node, as a child of `cur`. -/
def graft (nodes : List Node) (cur : ℕ) (bit : Bool) : List Node :=
  (nodes ++ [Node.leaf]).modify cur (fun n => n.setChild bit nodes.length)

@[simp] theorem length_graft : (graft nodes cur bit).length = nodes.length + 1 := by
  simp [graft]

theorem childOf_graft (hcur : cur < nodes.length) (i : ℕ) (b : Bool) :
    childOf (graft nodes cur bit) i b =
      if i = cur ∧ b = bit then some nodes.length else childOf nodes i b := by
  simp only [childOf,graft,getD_modify,getD_grow]
  by_cases hi : i = cur
  · subst hi
    have hlt : i < nodes.length + 1 := Nat.lt_succ_of_lt hcur
    simp [hlt]
  · simp [hi]

@[simp] theorem symbolOf_graft (i : ℕ) : symbolOf (graft nodes cur bit) i = symbolOf nodes i := by
  simp only [symbolOf,graft,getD_modify,getD_grow]
  split
  · simp
  · rfl

theorem Sound.graft (h : Sound nodes) (hcur : cur < nodes.length) : Sound (graft nodes cur bit) where
  forward {i j b} hc := by
    rw [childOf_graft hcur] at hc
    split at hc
    · next hi => cases hc; rw [hi.1]; exact hcur
    · exact h.forward hc
  single {i i' j b b'} hc hc' := by
    rw [childOf_graft hcur] at hc hc'
    split at hc <;> split at hc'
    · next hi hi' => exact ⟨hi.1.trans hi'.1.symm,hi.2.trans hi'.2.symm⟩
    · cases hc; exact absurd (h.bounded hc') (Nat.lt_irrefl _)
    · cases hc'; exact absurd (h.bounded hc) (Nat.lt_irrefl _)
    · exact h.single hc hc'
  bounded {i j b} hc := by
    rw [childOf_graft hcur] at hc
    rw [length_graft]
    split at hc
    · cases hc; exact Nat.lt_succ_self _
    · exact Nat.lt_succ_of_lt (h.bounded hc)

end Graft

/-- What inserting the word `p` of `sym` below `cur` does to the tree. -/
structure Adds (sym : ℕ) (p : List Bool) (cur : ℕ) (nodes nodes' : List Node) : Prop where
  longer : nodes.length ≤ nodes'.length
  keeps {i j : ℕ} {b : Bool} : childOf nodes i b = some j → childOf nodes' i b = some j
  fresh {i j : ℕ} {b : Bool} : childOf nodes' i b = some j → j < nodes.length → childOf nodes i b = some j
  ends : ∃ n, reach (childOf nodes') cur p = some n ∧
    ∀ i, symbolOf nodes' i = if i = n then some sym else symbolOf nodes i

theorem adds_mark {nodes : List Node} {cur : ℕ} (sym : ℕ) (h : Sound nodes) (hcur : cur < nodes.length) :
    Sound (nodes.modify cur (fun n => { n with symbol := some sym })) ∧
      Adds sym [] cur nodes (nodes.modify cur (fun n => { n with symbol := some sym })) := by
  have hchild : childOf (nodes.modify cur (fun n => { n with symbol := some sym })) = childOf nodes := by
    funext i b
    simp only [childOf,getD_modify]
    split <;> rfl
  refine ⟨⟨?_,?_⟩,⟨?_,?_,?_,cur,rfl,fun i => ?_⟩⟩
  · rw [hchild]; exact h.toRooted
  · rw [hchild,List.length_modify]; exact h.bounded
  · simp
  · rw [hchild]; exact id
  · rw [hchild]; exact fun hc _ => hc
  · simp only [symbolOf,getD_modify]
    by_cases hi : i = cur
    · subst hi; simp [hcur]
    · simp [hi]

theorem insertPath_adds (sym : ℕ) (p : List Bool) {nodes : List Node} {cur : ℕ} (h : Sound nodes)
    (hcur : cur < nodes.length) :
    Sound (insertPath sym p cur nodes) ∧ Adds sym p cur nodes (insertPath sym p cur nodes) := by
  induction p generalizing cur nodes with
  | nil => exact adds_mark sym h hcur
  | cons bit p ih =>
    rw [insertPath]
    cases hb : (nodes.getD cur .leaf).child bit with
    | some next =>
      obtain ⟨hs,ha⟩ := ih h (h.bounded hb)
      obtain ⟨n,hn,hsym⟩ := ha.ends
      refine ⟨hs,ha.longer,ha.keeps,ha.fresh,n,?_,hsym⟩
      rw [reach_cons,ha.keeps hb]
      exact hn
    | none =>
      change Sound (insertPath sym p nodes.length (graft nodes cur bit)) ∧
        Adds sym (bit :: p) cur nodes (insertPath sym p nodes.length (graft nodes cur bit))
      have hg : Sound (graft nodes cur bit) := h.graft hcur
      obtain ⟨hs,ha⟩ := ih hg (by simp : nodes.length < (graft nodes cur bit).length)
      obtain ⟨n,hn,hsym⟩ := ha.ends
      refine ⟨hs,(Nat.le_of_succ_le (by simpa using ha.longer)),fun {i j b} hc => ha.keeps ?_,
        fun {i j b} hc hj => ?_,n,?_,fun i => ?_⟩
      · rw [childOf_graft hcur,if_neg]
        · exact hc
        · rintro ⟨rfl,rfl⟩
          exact absurd (hb.symm.trans hc) (by simp)
      · have hold := ha.fresh hc (by simp; omega)
        rw [childOf_graft hcur] at hold
        split at hold
        · cases hold; exact absurd hj (Nat.lt_irrefl _)
        · exact hold
      · have hnew : childOf (graft nodes cur bit) cur bit = some nodes.length := by
          rw [childOf_graft hcur,if_pos ⟨rfl,rfl⟩]
        rw [reach_cons]
        rw [ha.keeps hnew]
        exact hn
      · rw [hsym i]
        simp

namespace Adds
variable {sym cur : ℕ} {p : List Bool} {nodes nodes' : List Node}

theorem reach_keeps (ha : Adds sym p cur nodes nodes') {i j : ℕ} {q : List Bool}
    (h : reach (childOf nodes) i q = some j) : reach (childOf nodes') i q = some j := by
  induction q generalizing i with
  | nil => exact h
  | cons b q ih =>
    rw [reach_cons] at h ⊢
    obtain ⟨k,hk,hj⟩ := Option.bind_eq_some_iff.mp h
    rw [ha.keeps hk]
    exact ih hj

theorem reach_fresh (ha : Adds sym p cur nodes nodes') (hs : Sound nodes') {j : ℕ} {q : List Bool}
    (h : reach (childOf nodes') 0 q = some j) (hj : j < nodes.length) :
    reach (childOf nodes) 0 q = some j := by
  induction q using List.reverseRecOn generalizing j with
  | nil => exact h
  | append_singleton q b ih =>
    obtain ⟨k,hk,hkj⟩ := reach_snoc h
    rw [reach_append,ih hk (Nat.lt_trans (hs.forward hkj) hj)]
    change (childOf nodes k b).bind _ = _
    rw [ha.fresh hkj hj]
    rfl

end Adds

theorem symbolOf_lt {nodes : List Node} {i s : ℕ} (h : symbolOf nodes i = some s) : i < nodes.length := by
  by_contra hi
  rw [symbolOf,List.getD_eq_getElem?_getD,List.getElem?_eq_none (Nat.le_of_not_lt hi)] at h
  cases h

/-- The tree carries the symbols of `code` at the ends of their words and nowhere else. -/
structure Spells (code : List (List Bool × ℕ)) (nodes : List Node) : Prop where
  sound : Sound nodes
  nonempty : 0 < nodes.length
  coded {p : List Bool} {s : ℕ} : (p,s) ∈ code →
    ∃ n, reach (childOf nodes) 0 p = some n ∧ symbolOf nodes n = some s
  marked {p : List Bool} {s n : ℕ} : reach (childOf nodes) 0 p = some n → symbolOf nodes n = some s →
    (p,s) ∈ code

theorem childOf_root (i : ℕ) (b : Bool) : childOf [Node.leaf] i b = none := by
  cases i <;> cases b <;> rfl

theorem symbolOf_root (i : ℕ) : symbolOf [Node.leaf] i = none := by
  cases i <;> rfl

theorem spells_root : Spells [] [Node.leaf] where
  sound := {
    forward := fun hc => by rw [childOf_root] at hc; cases hc
    single := fun hc => by rw [childOf_root] at hc; cases hc
    bounded := fun hc => by rw [childOf_root] at hc; cases hc }
  nonempty := Nat.one_pos
  coded := fun h => by cases h
  marked := fun _ h => by rw [symbolOf_root] at h; cases h

theorem Spells.insert {code : List (List Bool × ℕ)} {nodes : List Node} (h : Spells code nodes) {sym : ℕ}
    {p : List Bool} (hnew : ∀ e ∈ code, e.1 ≠ p) : Spells (code ++ [(p,sym)]) (insertPath sym p 0 nodes) := by
  obtain ⟨hs,ha⟩ := insertPath_adds sym p h.sound h.nonempty
  obtain ⟨n,hn,hsym⟩ := ha.ends
  refine ⟨hs,Nat.lt_of_lt_of_le h.nonempty ha.longer,fun {q s} hmem => ?_,fun {q s m} hm hms => ?_⟩
  · rcases List.mem_append.mp hmem with hold | hlast
    · obtain ⟨m,hm,hms⟩ := h.coded hold
      refine ⟨m,ha.reach_keeps hm,?_⟩
      rw [hsym,if_neg]
      · exact hms
      · rintro rfl
        exact hnew _ hold (hs.reach_inj (ha.reach_keeps hm) hn)
    · obtain ⟨rfl,rfl⟩ := Prod.mk.inj (List.mem_singleton.mp hlast)
      exact ⟨n,hn,by rw [hsym,if_pos rfl]⟩
  · rw [hsym] at hms
    split at hms
    · next hmn =>
      cases hms
      rw [hmn] at hm
      rw [hs.reach_inj hm hn]
      simp
    · exact List.mem_append_left _ (h.marked (ha.reach_fresh hs hm (symbolOf_lt hms)) hms)

theorem Spells.reach_lt {code : List (List Bool × ℕ)} {nodes : List Node} (h : Spells code nodes) {n : ℕ}
    {p : List Bool} (hp : reach (childOf nodes) 0 p = some n) : n < nodes.length := by
  cases p using List.reverseRecOn with
  | nil => cases hp; exact h.nonempty
  | append_singleton p b =>
    obtain ⟨m,_,hm⟩ := reach_snoc hp
    exact h.sound.bounded hm

/-- The words of the table's entries with their symbols. -/
def words (entries : List ((ℕ × ℕ) × ℕ)) : List (List Bool × ℕ) :=
  entries.map fun e => (codeBits e.1.1 e.1.2,e.2)

theorem spells_foldl (entries : List ((ℕ × ℕ) × ℕ)) (hfree : PrefixFree (words entries))
    (hnodup : (words entries).Nodup) :
    Spells (words entries)
      (entries.foldl (fun nodes e => insertPath e.2 (codeBits e.1.1 e.1.2) 0 nodes) [.leaf]) := by
  induction entries using List.reverseRecOn with
  | nil => exact spells_root
  | append_singleton entries e ih =>
    have hw : words (entries ++ [e]) = words entries ++ [(codeBits e.1.1 e.1.2,e.2)] := by simp [words]
    rw [hw] at hfree hnodup ⊢
    have hold := ih (fun a ha b hb => hfree a (List.mem_append_left _ ha) b (List.mem_append_left _ hb))
      (List.nodup_append.mp hnodup).1
    rw [List.foldl_append]
    refine hold.insert fun a ha => ?_
    have hne := (List.nodup_append.mp hnodup).2.2 a ha _ (List.mem_singleton.mpr rfl)
    exact hfree.word_ne (List.mem_append_left _ ha) (by simp) hne

/-- The code of RFC 7541 Appendix B. -/
def code : List (List Bool × ℕ) := words table.zipIdx

theorem code_prefixFree : PrefixFree code :=
  prefixFree_of_separates (by decide +kernel : separates 30 code = true)

example : code.length = 257 := by decide +kernel

theorem code_nodup : code.Nodup := by
  have hsnd : code.map Prod.snd = List.range' 0 table.length := by
    rw [code,words,List.map_map]
    exact List.zipIdx_map_snd 0 table
  exact List.Nodup.of_map Prod.snd (hsnd ▸ List.nodup_range')

theorem tree_spells : Spells code tree :=
  spells_foldl _ code_prefixFree code_nodup

end OxiServe.Huffman
