import Yfs.Lib.Codec
import Yfs.Lib.Prog

/-!
# The two ends of a call

`rpcc::call` marshalls its arguments and unmarshalls the result, and the handler that `rpcs::reg`
makes of a method does the converse. There are seven of each in `rpc.h`, one for each number of
arguments; here the arguments are one value, and `Codec.pair` puts them in a row.

What is between the two ends, `call1` and `dispatch`, is in `librpc.a` and is a parameter. If it
carries the bytes, a call is the method (`call_agrees`), and bytes that are not the arguments of a
call do not get to the method (`fn_refuses`).
-/

namespace Yfs.Rpc

/-- What both ends have to agree on: the number of the procedure, and the types. -/
structure Signature (α ρ : Type) where
  proc : UInt32
  args : Codec UInt8 α
  res : Codec UInt8 ρ

/-- `handler`: from the bytes of the arguments to a status and the bytes of the result. -/
abbrev Handler (ε ι σ : Type) : Type 1 := Reader UInt8 → Prog ε ι σ (ℤ × List UInt8)

/-- `rpc_const::unmarshal_args_failure`. -/
def unmarshal_args_failure : ℤ := -2

variable {ε ι σ α ρ : Type}

/-- `h1::fn`; `a` and `r` are what `A1 a1; R r;` are before they are set. -/
def fn (p : Signature α ρ) (a : α) (r : ρ) (meth : α → ρ → Prog ε ι σ (ℤ × ρ)) :
    Handler ε ι σ := fun args =>
  let (a, args) := p.args.get a args
  if args.okdone then do
    let (b, r) ← meth a r
    pure (b, p.res.put r)
  else pure (unmarshal_args_failure, [])

/-- `rpcs::reg`, on the map from numbers to handlers. -/
def reg (procs : UInt32 → Option (Handler ε ι σ)) (p : Signature α ρ) (a : α) (r : ρ)
    (meth : α → ρ → Prog ε ι σ (ℤ × ρ)) : UInt32 → Option (Handler ε ι σ) :=
  Function.update procs p.proc (some (fn p a r meth))

/-- The network and the dispatcher: from a number and the bytes of the arguments to what
`call1` returns and the bytes of the result. -/
abbrev Network (ε ι σ : Type) : Type 1 := UInt32 → List UInt8 → Prog ε ι σ (ℤ × List UInt8)

/-- The network carries the calls to these handlers, and back what they return. -/
def Network.Carries (call1 : Network ε ι σ) (procs : UInt32 → Option (Handler ε ι σ)) : Prop :=
  ∀ proc h, procs proc = some h → ∀ req, call1 proc req = h (.new req)

/-- `rpcc::call_m`; `verify` is a `VERIFY` that fails. -/
def call_m (verify : ε) (call1 : Network ε ι σ) (p : Signature α ρ) (req : List UInt8) (r : ρ) :
    Prog ε ι σ (ℤ × ρ) := do
  let (intret, rep) ← call1 p.proc req
  if intret < 0 then pure (intret, r)
  else
    let (r, u) := p.res.get r (.new rep)
    if u.okdone then pure (intret, r) else .fail verify

/-- `rpcc::call`. -/
def call (verify : ε) (call1 : Network ε ι σ) (p : Signature α ρ) (a : α) (r : ρ) :
    Prog ε ι σ (ℤ × ρ) := call_m verify call1 p (p.args.put a) r

/-- The method itself; a status below zero leaves the variable of the caller as it is. -/
def direct (meth : α → ρ → Prog ε ι σ (ℤ × ρ)) (a : α) (r₀ r : ρ) : Prog ε ι σ (ℤ × ρ) := do
  let (b, r') ← meth a r₀
  pure (b, if b < 0 then r else r')

variable {p : Signature α ρ} {a a₀ : α} {r r₀ : ρ} {A : α → Prop} {R : ρ → Prop}
  {meth : α → ρ → Prog ε ι σ (ℤ × ρ)}

/-- The handler gets the arguments that were sent. -/
theorem fn_put (hargs : p.args.Reads a₀ A) (ha : A a) :
    fn p a₀ r₀ meth (.new (p.args.put a)) = (do
      let (b, r) ← meth a r₀
      pure (b, p.res.put r)) := by
  have hget := hargs.get_put ha []
  rw [List.append_nil] at hget
  simp only [fn, hget, Reader.okdone_iff.mpr rfl, if_true]

/-- **A call is the method**, if the network carries it: for all arguments that can be read, and
all results that can. -/
theorem call_agrees (hargs : p.args.Reads a₀ A) (ha : A a) (hres : p.res.Reads r R) (verify : ε)
    {call1 : Network ε ι σ} (hcall1 : ∀ req, call1 p.proc req = fn p a₀ r₀ meth (.new req)) :
    (direct meth a r₀ r).Agrees (fun x => x.1 < 0 ∨ R x.2) (call verify call1 p a r) := by
  refine ⟨fun x => if x.1 < 0 then pure x else
    let (r', u) := p.res.get r (.new (p.res.put x.2))
    if u.okdone then pure (x.1, r') else .fail verify, ?_, ?_⟩
  · rw [call, call_m, hcall1, fn_put hargs ha, direct, bind_assoc, bind_assoc]
    refine congrArg (meth a r₀ >>= ·) (funext fun ⟨b, r'⟩ => ?_)
    rw [pure_bind, pure_bind]
    by_cases hb : b < 0
    · simp only [hb, if_true]
    · simp only [hb, if_false]
  · rintro ⟨b, r'⟩ hx
    by_cases hb : b < 0
    · exact if_pos hb
    · have hget := hres.get_put (hx.resolve_left hb) []
      rw [List.append_nil] at hget
      simp only [hb, if_false, hget, Reader.okdone_iff.mpr rfl, if_true]

/-- **No other bytes get to the method**: not arguments that were cut off anywhere, and not
arguments with something behind them. -/
theorem fn_refuses (hargs : p.args.Reads a₀ A) (ha : A a) {bytes : List UInt8}
    (h : (bytes <+: p.args.put a ∧ bytes ≠ p.args.put a) ∨
      ∃ extra, extra ≠ [] ∧ bytes = p.args.put a ++ extra) :
    fn p a₀ r₀ meth (.new bytes) = pure (unmarshal_args_failure, []) := by
  have hnot : (p.args.get a₀ (.new bytes)).2.okdone = false := by
    rcases h with ⟨hpre, hne⟩ | ⟨extra, hextra, rfl⟩
    · rw [Reader.okdone, hargs.cut ha hpre hne, Bool.false_and]
    · rw [hargs.get_put ha]
      simpa [Reader.okdone, Reader.new] using hextra
  simp only [fn, hnot, Bool.false_eq_true, if_false]

end Yfs.Rpc
