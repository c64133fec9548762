import Safeos.Asset
import Safeos.Lib.Table

/-!
# The token contract (`contracts/eosio.token`, `chain/native/native.cpp`)

The contract keeps two tables: `stat`, one row per symbol name (scope and primary key are both
the symbol name), and `accounts`, one balance row per owner (the scope) and symbol name. The
actions `create`, `issue` and `transfer` change them through `sub_balance` and `add_balance`;
the native helpers `transfer` and `transfer_inline` write the same rows through raw database
calls with their own balance arithmetic.

`issue` sends an inline `transfer` from the issuer when `to` is someone else; a transaction
completes or aborts as a whole, so the inline transfer is part of the same step here.
-/

namespace Safeos
namespace Token

/-- `currency_stats`, a row of `stat`. -/
structure CurrencyStats where
  supply : Asset
  maxSupply : Asset
  issuer : Name
deriving DecidableEq, Repr

/-- The token tables: `stat` by symbol name, and the balances of `accounts` by owner and
symbol name. -/
structure State where
  stat : AList (fun _ : UInt64 => CurrencyStats)
  accounts : AList (fun _ : Name × UInt64 => Asset)

/-- What the actions read from the chain: the contract's own account and `is_account`. -/
structure Env where
  self : Name
  isAccount : Name → Bool

/-- `require_auth`: the account must be among the action's authorizers. -/
def requireAuth (auths : List Name) (n : Name) : Except String Unit :=
  eosioAssert (auths.contains n) "missing authority"

/-- `multi_index::get`: the row under `k`, or abort with `msg`. -/
def getRow {κ ν : Type} [DecidableEq κ] (t : AList (fun _ : κ => ν)) (k : κ) (msg : String) :
    Except String ν :=
  match t.lookup k with
  | some v => pure v
  | none => throw msg

theorem errorsIn_getRow {κ ν : Type} [DecidableEq κ] {p : String → Prop}
    {t : AList (fun _ : κ => ν)} {k : κ} {msg : String} (h : p msg) :
    Except.ErrorsIn p (getRow t k msg) := by
  unfold getRow
  split
  · exact Except.errorsIn_pure _
  · exact Except.errorsIn_throw h

/-- `token::sub_balance`: erase the row when it reaches exactly zero, else subtract. -/
def subBalance (s : State) (owner : Name) (value : Asset) : Except String State := do
  let fromRow ← getRow s.accounts (owner, value.symbol.name) "no balance object found"
  eosioAssert (fromRow.amount ≥ value.amount) "overdrawn balance"
  if fromRow.amount = value.amount then
    pure { s with accounts := s.accounts.erase (owner, value.symbol.name) }
  else
    let b ← fromRow.subAssign value
    pure { s with accounts := s.accounts.insert (owner, value.symbol.name) b }

/-- `token::add_balance`: create the row on the first credit, else add. -/
def addBalance (s : State) (owner : Name) (value : Asset) : Except String State :=
  match s.accounts.lookup (owner, value.symbol.name) with
  | none => pure { s with accounts := s.accounts.insert (owner, value.symbol.name) value }
  | some toRow => do
    let b ← toRow.addAssign value
    pure { s with accounts := s.accounts.insert (owner, value.symbol.name) b }

/-- `token::create`. -/
def create (env : Env) (auths : List Name) (s : State) (issuer : Name) (maximumSupply : Asset) :
    Except String State := do
  requireAuth auths env.self
  let sym := maximumSupply.symbol
  eosioAssert sym.isValid "invalid symbol name"
  eosioAssert maximumSupply.isValid "invalid supply"
  eosioAssert (maximumSupply.amount > 0) "max-supply must be positive"
  eosioAssert (s.stat.lookup sym.name).isNone "token with symbol already exists"
  pure { s with stat := s.stat.insert sym.name (
    { supply := ⟨0, sym⟩, maxSupply := maximumSupply, issuer := issuer }) }

/-- `token::transfer`. The notifications to `from` and `to` run other contracts' handlers,
which are steps of their own. -/
def transfer (env : Env) (auths : List Name) (s : State) («from» «to» : Name) (quantity : Asset)
    (memo : String) : Except String State := do
  eosioAssert («from» ≠ «to») "cannot transfer to self"
  requireAuth auths «from»
  eosioAssert (env.isAccount «to») "to account does not exist"
  let st ← getRow s.stat quantity.symbol.name "unable to find key"
  eosioAssert quantity.isValid "invalid quantity"
  eosioAssert (quantity.amount > 0) "must transfer positive quantity"
  eosioAssert (quantity.symbol = st.supply.symbol) "symbol precision mismatch"
  eosioAssert (memo.utf8ByteSize ≤ 256) "memo has more than 256 bytes"
  let s ← subBalance s «from» quantity
  addBalance s «to» quantity

/-- `token::issue`, with its inline transfer from the issuer (authorized by the issuer). -/
def issue (env : Env) (auths : List Name) (s : State) («to» : Name) (quantity : Asset)
    (memo : String) : Except String State := do
  let sym := quantity.symbol
  eosioAssert sym.isValid "invalid symbol name"
  eosioAssert (memo.utf8ByteSize ≤ 256) "memo has more than 256 bytes"
  let st ← getRow s.stat sym.name "token with symbol does not exist, create token before issue"
  requireAuth auths st.issuer
  eosioAssert quantity.isValid "invalid quantity"
  eosioAssert (quantity.amount > 0) "must issue positive quantity"
  eosioAssert (quantity.symbol = st.supply.symbol) "symbol precision mismatch"
  eosioAssert (quantity.amount ≤ int64 (st.maxSupply.amount - st.supply.amount))
    "quantity exceeds available supply"
  let supply ← st.supply.addAssign quantity
  let s := { s with stat := s.stat.insert sym.name ({ st with supply }) }
  let s ← addBalance s st.issuer quantity
  if «to» ≠ st.issuer then transfer env [st.issuer] s st.issuer «to» quantity memo else pure s

/-- Native `sub_balance`: the stored row is read as it is, and erased at exactly zero. -/
def nativeSubBalance (s : State) (owner : Name) (amount : Int) (symbol : UInt64) :
    Except String State := do
  let _ ← Asset.make 0 ⟨symbol⟩
  let balance ← getRow s.accounts (owner, symbol >>> 8) "no balance found"
  eosioAssert (balance.amount ≥ amount) "overdrawn balance"
  if balance.amount = amount then
    pure { s with accounts := s.accounts.erase (owner, symbol >>> 8) }
  else
    pure { s with accounts := s.accounts.insert (owner, symbol >>> 8) (
      { balance with amount := int64 (balance.amount - amount) }) }

/-- Native `add_balance`: a new row gets `symbol`, an existing one keeps its stored symbol, and
the amounts are added as raw `int64_t`. -/
def nativeAddBalance (s : State) (owner : Name) (amount : Int) (symbol : UInt64) :
    Except String State := do
  let _ ← Asset.make 0 ⟨symbol⟩
  match s.accounts.lookup (owner, symbol >>> 8) with
  | none => pure { s with accounts := s.accounts.insert (owner, symbol >>> 8) ⟨amount, ⟨symbol⟩⟩ }
  | some balance =>
    pure { s with accounts := s.accounts.insert (owner, symbol >>> 8) (
      { balance with amount := int64 (balance.amount + amount) }) }

/-- Native `transfer_inline`: from the contract that calls it (`current_receiver`). -/
def nativeTransferInline (env : Env) (s : State) (receiver «to» : Name) (amount : Int)
    (symbol : UInt64) : Except String State := do
  let «from» := receiver
  eosioAssert («from» ≠ «to») "cannot transfer to self"
  eosioAssert (env.isAccount «to») "to account does not exist"
  let st ← getRow s.stat (symbol >>> 8) "unable to find key"
  let quantity ← Asset.make amount ⟨symbol⟩
  eosioAssert quantity.isValid "invalid quantity"
  eosioAssert (quantity.amount > 0) "must transfer positive quantity"
  eosioAssert (quantity.symbol = st.supply.symbol) "symbol precision mismatch"
  let s ← nativeSubBalance s «from» amount symbol
  nativeAddBalance s «to» amount symbol

/-- Native `transfer`: the stat row is found under `symbol`, but the amount moves in the core
symbol `S(4,EOS)`. -/
def nativeTransfer (env : Env) (auths : List Name) (s : State) («from» «to» : Name) (amount : Int)
    (symbol : UInt64) : Except String State := do
  eosioAssert («from» ≠ «to») "cannot transfer to self"
  requireAuth auths «from»
  eosioAssert (env.isAccount «to») "to account does not exist"
  let st ← getRow s.stat (symbol >>> 8) "unable to find key"
  let quantity ← Asset.make amount coreSymbol
  eosioAssert quantity.isValid "invalid quantity"
  eosioAssert (quantity.amount > 0) "must transfer positive quantity"
  eosioAssert (quantity.symbol = st.supply.symbol) "symbol precision mismatch"
  let s ← nativeSubBalance s «from» amount coreSymbol.value
  nativeAddBalance s «to» amount coreSymbol.value

/-- The operations that write the token tables. -/
inductive Action where
  | create (issuer : Name) (maximumSupply : Asset)
  | issue («to» : Name) (quantity : Asset) (memo : String)
  | transfer («from» «to» : Name) (quantity : Asset) (memo : String)
  | nativeTransfer («from» «to» : Name) (amount : Int) (symbol : UInt64)
  | nativeTransferInline (receiver «to» : Name) (amount : Int) (symbol : UInt64)

/-- An action with the accounts that authorized it. -/
structure Request where
  auths : List Name
  act : Action

/-- One operation, completed or aborted as a whole. -/
def step (env : Env) (s : State) (r : Request) : Except String State :=
  match r.act with
  | .create issuer q => create env r.auths s issuer q
  | .issue «to» q memo => issue env r.auths s «to» q memo
  | .transfer f «to» q memo => transfer env r.auths s f «to» q memo
  | .nativeTransfer f «to» a sym => nativeTransfer env r.auths s f «to» a sym
  | .nativeTransferInline recv «to» a sym => nativeTransferInline env s recv «to» a sym

/-- The tables when the contract is deployed. -/
def State.init : State := ⟨∅, ∅⟩

end Token
end Safeos
