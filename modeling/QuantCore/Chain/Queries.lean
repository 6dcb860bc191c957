import QuantCore.Chain.State

/-!
# Questions to the chainstate

What the wallet's server and the network ask of the state. The outpoints of an
address are kept in an unordered set: the order in which a loop meets them is a
parameter.
-/

namespace QuantCore.Chainstate

/-- `find_tx_block`. -/
def findTxBlock (s : Chainstate) (txid : Hash256) : Option Hash256 := s.txindex.lookup txid

/-- `coins_for_address`; an outpoint without a coin has `at` throw. -/
def coinsForAddress (enum : Finset OutPoint → List OutPoint) (s : Chainstate) (addr : Hash256) :
    Option (List (OutPoint × Coin)) :=
  match s.byAddr.lookup addr with
  | none => some []
  | some ops => (enum ops).mapM fun o => (s.utxo.lookup o).map fun c => (o, c)

end QuantCore.Chainstate
