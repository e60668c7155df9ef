import OxiServe.Http.Date
import OxiServe.Lib.Http1Head
import OxiServe.Server.Decorate

/-! # The fields of a response head

A head is sound when every line of it is one line and the fields that frame the body and
name the fate of the connection are there as often as they should. `Date`, `Server` and
the fields written for framing and connection are, so it depends on the stored ones.
-/
namespace OxiServe.Response
open Http1Head (isLine isLine_append isLine_decimal)

/-- How many fields have this name. -/
def named (n : Bytes) (hs : List (Bytes × Bytes)) : ℕ := hs.countP (fun f => eqIgnoreAsciiCase f.1 n)

def OneLine (f : Bytes × Bytes) : Prop := isLine f.1 = true ∧ isLine f.2 = true

instance (f : Bytes × Bytes) : Decidable (OneLine f) := inferInstanceAs (Decidable (_ ∧ _))

/-- The status line without its end. -/
def statusText (code : ℕ) : Bytes := lit "HTTP/1.1 " ++ decimal code ++ lit " " ++ reason code

/-- The lines of the head. -/
def Resp.lines (r : Resp) (tokens : ServerTokens) (date : Bytes) : List Bytes :=
  statusText r.status :: (r.fields tokens date).map (fun f => f.1 ++ lit ": " ++ f.2)

/-- No line of the head has a line break in it, and the fields on framing and connection
are given once. -/
structure Resp.WellFormed (r : Resp) (tokens : ServerTokens) (date : Bytes) : Prop where
  status : isLine (statusText r.status) = true
  lines : ∀ f ∈ r.fields tokens date, OneLine f
  length : named (lit "Content-Length") (r.fields tokens date) ≤ 1
  coding : named (lit "Transfer-Encoding") (r.fields tokens date) ≤ 1
  either : named (lit "Content-Length") (r.fields tokens date) = 0 ∨
    named (lit "Transfer-Encoding") (r.fields tokens date) = 0
  connection : named (lit "Connection") (r.fields tokens date) = 1

/-- The names that say how the body is framed and what becomes of the connection. -/
def framingNames : List Bytes := [lit "Content-Length",lit "Transfer-Encoding",lit "Connection"]

/-- How many lengths and codings a framing writes. -/
def Framing.lengths : Framing → ℕ
  | .length _ => 1
  | _ => 0

def Framing.codings : Framing → ℕ
  | .chunked => 1
  | _ => 0

/-- Stored fields that go with the framing and the status of a head. -/
structure Agrees (hs : List (Bytes × Bytes)) (framing : Framing) (status : ℕ) : Prop where
  length : framing.lengths + named (lit "Content-Length") hs ≤ 1
  coding : framing.codings + named (lit "Transfer-Encoding") hs ≤ 1
  either : framing.lengths + named (lit "Content-Length") hs = 0 ∨ framing.codings + named (lit "Transfer-Encoding") hs = 0
  connection : named (lit "Connection") hs = if status = 101 then 1 else 0

section Named
variable {n : Bytes} {f : Bytes × Bytes} {hs ks : List (Bytes × Bytes)}

end Named

section Lines

example : isLine (reason 505) = true := by decide +kernel

end Lines

section Head
variable {r : Resp} {tokens : ServerTokens} {date : Bytes}

/-- The fields that are not stored. -/
def Resp.ownFields (r : Resp) (tokens : ServerTokens) (date : Bytes) : List (Bytes × Bytes) :=
  r.serverField tokens ++ r.dateField date ++ r.framingField ++ r.connectionField

end Head

end OxiServe.Response

namespace OxiServe.Server
open Config Response
open Http1Head (isLine isLine_append isLine_decimal)
variable {env : Env} {ctx : Ctx} {r : Resp} {n m v : Bytes} {f : Bytes × Bytes}

section Counts

end Counts

section Origin

variable {given : List (Bytes × Bytes)} {P : Bytes × Bytes → Prop}

theorem forall_header (h : ∀ f ∈ r.hdrs, P f) (hv : P (n,v)) : ∀ f ∈ (r.header n v).hdrs, P f := by
  intro f hf
  rcases List.mem_append.mp hf with hf | hf
  · exact h f hf
  · rw [List.mem_singleton.mp hf]
    exact hv

end Origin

end OxiServe.Server
