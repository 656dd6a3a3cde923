import Shading.Graph.Subgraph

/-!
# Proxies

A proxy converts a type to itself. Its consumers are moved to what feeds it; if nothing does, its
literal is stored in them. -/

namespace Shading.Edit

/-- Unlinks those consumers of a conversion that have a default source of their own. Tells whether
no others are left. -/
def releaseDefaults (convert : NodeId) : Edit Bool := do
  let targets ← ask (·.consumersOf ⟨convert, 0⟩)
  targets.foldlM (fun all target => do
    if (← ask (·.input target)).source.isSome then
      disconnectInput target
      pure all
    else pure false) true

/-- Stores a literal in a consumer of an unfed proxy. Through an automatic conversion it would also
reach inputs with a default source, which fall back to that source instead. Returns the conversion
if nothing uses it any more. -/
def storeInConsumer (literal : Literal) (target : InputRef) : Edit NodeSet := do
  let n ← ask (·.node target.node)
  let unused ← if n.role = .autoConvert then releaseDefaults target.node else pure false
  disconnectInput target
  store target literal
  pure (if unused then [target.node] else [])

/-- Takes a proxy out of the flow of data. Returns the nodes that are to be removed with it. -/
def resolveProxy (id : NodeId) : Edit NodeSet := do
  let input ← ask (·.input ⟨id, 0⟩)
  match input.link with
  | some source =>
    bypass id ⟨id, 0⟩ (some source)
    pure [id]
  | none =>
    let targets ← ask (·.consumersOf ⟨id, 0⟩)
    targets.foldlM (fun removed target => return removed ++ (← storeInConsumer input.literal target))
      [id]

/-- Removes all proxies. -/
def removeProxies : Edit Unit := do
  let ids := (← get).ids
  let removed ← ids.foldlM (fun removed id => do
    if (← ask (·.node id)).role = .proxy then return removed ++ (← resolveProxy id)
    else pure removed) []
  removeNodes (NodeSet.ofList removed)

end Shading.Edit
