import TypedStack.Listing
import TypedStack.Options.Toml
import TypedStack.Proofs.AccessPaths
import TypedStack.Proofs.BlockFill
import TypedStack.Proofs.BlockSize
import TypedStack.Proofs.ControlFlow
import TypedStack.Proofs.EffectOrder
import TypedStack.Proofs.HomeOrder
import TypedStack.Proofs.Meaning
import TypedStack.Proofs.Temporaries
import TypedStack.Proofs.WriteProtection
import TypedStack.Session
import TypedStack.Proofs.Recycling
import TypedStack.Proofs.Faults
import TypedStack.Proofs.Sessions
import TypedStack.Proofs.Isolation
import TypedStack.Proofs.SlotRuns
import TypedStack.Proofs.Interning
import TypedStack.Proofs.LocalSlots
import TypedStack.Proofs.PoolSize
