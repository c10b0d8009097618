import Cspn.Conservation

/-!
Chains of blocks that `ConnectBlock` has connected, each on its parent as the tip and on
the coins that the parent left, from the genesis block on. The clock, the sporks and the
other external answers may differ from block to block.
-/
namespace Cspn.Chain
open Primitives Index Coins Env Connect Conservation

structure Link where
  block : CBlock
  pindexPrev : CBlockIndex
  view : CCoinsView

namespace Link

def nHeight (link : Link) : Nat := link.pindexPrev.nHeight + 1

/-- The values of all outputs of the block less the values of all coins it spends. -/
def created (link : Link) : Int := netIssuance link.nHeight link.view link.block.vtx

end Link

/-- The links, last block first, lead from the genesis block to the entry and the coins. -/
inductive IsChain (params : Params) : CBlockIndex → CCoinsView → List Link → Prop where
  | genesis (fields : IndexFields) (hash : fields.phashBlock = params.hashGenesisBlock)
      (supply : fields.nMoneySupply = 0) : IsChain params (.genesis fields) (CCoinsView.empty fields.phashBlock) []
  | connect {ext : Externals} {g : Globals} {block : CBlock} {pindexPrev : CBlockIndex} {fields : IndexFields}
      {view : CCoinsView} {links : List Link} {c : Connection} (chain : IsChain params pindexPrev view links)
      (tip : g.chainActive.tip = some pindexPrev) (coins : g.pcoinsTip.coins = view.coins)
      (connected : connectBlock params ext g block pindexPrev fields view false = .ok c) :
      IsChain params (.next pindexPrev c.fields) c.view (⟨block, pindexPrev, view⟩ :: links)

def issuedBy (links : List Link) : Int := (links.map Link.created).sum

@[simp] theorem issuedBy_nil : issuedBy [] = 0 := rfl

@[simp] theorem issuedBy_cons (link : Link) (links : List Link) :
    issuedBy (link :: links) = link.created + issuedBy links := rfl

end Cspn.Chain
