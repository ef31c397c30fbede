import XHook.Memory
import XHook.Elf
import XHook.Sleb128
import XHook.PlainIter
import XHook.PackedIter
import XHook.Aps2
import XHook.Hash
import XHook.View
import XHook.Lookup
import XHook.Init
import XHook.Hook
import XHook.Footprint
import XHook.HookSpec
import XHook.TwoRuns
import XHook.Runs
import XHook.Sequences
import XHook.Reads
