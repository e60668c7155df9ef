import OxiServe.Server.Conn
import OxiServe.Server.Entering
import OxiServe.Server.HeadFields
import OxiServe.Server.Validators

/-! # Where the fields of a response head come from

Of the fields of a page or a file only the target of a redirect and the content type are
put together from other texts. These, what an upstream, an application or the cache gave
and what `add_header` renders are written as they are, so a head is well formed just when
they are.
-/
namespace OxiServe.Server
open Config Response
open Http1Head (isLine isLine_append isLine_decimal)

/-- The fields whose values are rendered or configured. -/
def isRendered (f : Bytes × Bytes) : Bool := f.1 == lit "Location" || f.1 == lit "Content-Type"

/-- A line of the server's own that says nothing on framing or connection. -/
def OwnField (f : Bytes × Bytes) : Prop := OneLine f ∧ ∀ n ∈ framingNames, eqIgnoreAsciiCase f.1 n = false

/-- What the fields of a page and of a file are. -/
def Producer.Fields : Producer → Reply → Prop
  | .page, r | .files, r => ∀ f ∈ r.resp.hdrs, isRendered f = true ∨ OwnField f
  | _, _ => True

def Step.Fields : Step → Prop
  | .done r p => p.Fields r
  | _ => True

variable {env : Env} {sub : Ctx → Reply} {ctx : Ctx} {loc : Location}

section Pages

theorem errorBody_fields {resp : Resp} {code : ℕ} (h : ∀ f ∈ resp.hdrs, isRendered f = true) :
    ∀ f ∈ (errorBody ctx resp code).resp.hdrs, isRendered f = true := by
  unfold errorBody
  split
  · exact h
  · dsimp only
    split
    · exact h
    · exact forall_header h rfl

theorem errorReply_fields (ctx : Ctx) (code : ℕ) : ∀ f ∈ (errorReply ctx code).resp.hdrs, isRendered f = true :=
  errorBody_fields fun _ h => nomatch h

theorem IsPage.fields {r : Reply} (h : IsPage env r) : ∀ f ∈ r.resp.hdrs, isRendered f = true := by
  cases h with
  | ret ctx code body =>
    unfold returnReply
    dsimp only
    split
    · split
      · exact forall_header (fun _ h => nomatch h) rfl
      · exact fun _ h => nomatch h
    · split
      · exact fun _ h => nomatch h
      · split
        · exact forall_header (fun _ h => nomatch h) rfl
        · exact errorReply_fields _ _
  | redirect ctx code target _ => exact errorBody_fields (forall_header (fun _ h => nomatch h) rfl)

theorem page_fields {r : Reply} (h : ∀ f ∈ r.resp.hdrs, isRendered f = true) : Producer.page.Fields r :=
  fun f hf => Or.inl (h f hf)

theorem Step.FromPage.fields {s : Step} (h : s.FromPage env) : s.Fields := by
  cases s with
  | done r p =>
    obtain ⟨rfl,hp⟩ := h
    exact page_fields hp.fields
  | fail code => trivial
  | internal uri => trivial
  | named n => trivial

end Pages

section Files

end Files

section Runs
variable (he : ∀ t, isLine (env.httpDate t) = true)
include he

end Runs

namespace Handled
variable {h : Handled} {given : List (Bytes × Bytes)} {framing : Framing}

/-- The fields of the reply that are rendered, configured or received. -/
def received (h : Handled) : List (Bytes × Bytes) :=
  match h.producer with
  | .page | .files => h.made.resp.hdrs.filter isRendered
  | _ => h.made.resp.hdrs

end Handled

example : Date.httpDate 0 = lit "Thu, 01 Jan 1970 00:00:00 GMT" := by decide +kernel

end OxiServe.Server
