import QuantCore.Proofs.Amounts
import QuantCore.Proofs.Ancestor
import QuantCore.Proofs.Authorization
import QuantCore.Proofs.Bencode
import QuantCore.Proofs.Candidates
import QuantCore.Proofs.Canonical
import QuantCore.Proofs.Conservation
import QuantCore.Proofs.Retarget
import QuantCore.Proofs.Division
import QuantCore.Proofs.Emission
import QuantCore.Proofs.HeaderSync
import QuantCore.Proofs.Http
import QuantCore.Proofs.Inclusion
import QuantCore.Proofs.Keys
import QuantCore.Proofs.LightSync
import QuantCore.Proofs.LightWallet
import QuantCore.Proofs.Payments
import QuantCore.Proofs.Positions
import QuantCore.Proofs.Quote
import QuantCore.Proofs.Mnemonic
import QuantCore.Proofs.Reorg
import QuantCore.Proofs.Liquidity
import QuantCore.Proofs.MedianTime
import QuantCore.Proofs.Mining
import QuantCore.Proofs.Session
import QuantCore.Proofs.Undo
import QuantCore.Proofs.Adoption
import QuantCore.Proofs.Tip
import QuantCore.Proofs.Addresses
import QuantCore.Proofs.Effects
import QuantCore.Proofs.FailedBuild
import QuantCore.Proofs.Explorer
import QuantCore.Proofs.Frames
import QuantCore.Proofs.Remining
import QuantCore.Proofs.Utxos
import QuantCore.Proofs.FastSync
import QuantCore.Proofs.Failed
import QuantCore.Proofs.WalletKeys
import QuantCore.Proofs.WalletFile
import QuantCore.Proofs.Peering
import QuantCore.Proofs.Reversal
import QuantCore.Proofs.Activation
import QuantCore.Proofs.Sizes
import QuantCore.Proofs.Estimate
import QuantCore.Proofs.Listings
import QuantCore.Proofs.Returns
import QuantCore.Lib.Turns
import QuantCore.Proofs.Footprint
import QuantCore.Proofs.Tries
import QuantCore.Proofs.Lines
