import LuaFltk.Api.Ref
import LuaFltk.Api.State
import LuaFltk.Binding.Callback
import LuaFltk.Binding.Careful
import LuaFltk.Binding.Columns
import LuaFltk.Binding.Event
import LuaFltk.Binding.Handler
import LuaFltk.Binding.Hook
import LuaFltk.Binding.Registration
import LuaFltk.Binding.System
import LuaFltk.Binding.Timer
import LuaFltk.Bytecode.Accepted
import LuaFltk.Bytecode.CheckCode
import LuaFltk.Bytecode.Cmd
import LuaFltk.Bytecode.Frame
import LuaFltk.Bytecode.Opcodes
import LuaFltk.Bytecode.Proto
import LuaFltk.Chunk.Dump
import LuaFltk.Chunk.Loaded
import LuaFltk.Chunk.RoundTrip
import LuaFltk.Chunk.Undump
import LuaFltk.Chunk.Zio
import LuaFltk.Compiler.Blocks
import LuaFltk.Compiler.Code
import LuaFltk.Compiler.Exec
import LuaFltk.Compiler.Lists
import LuaFltk.Compiler.Loops
import LuaFltk.Compiler.Meaning
import LuaFltk.Compiler.Naming
import LuaFltk.Compiler.Patch
import LuaFltk.Compiler.Preserve
import LuaFltk.Compiler.Rules
import LuaFltk.Compiler.Scope
import LuaFltk.Compiler.Scoped
import LuaFltk.Compiler.Statement
import LuaFltk.Compiler.Targets
import LuaFltk.Compiler.Until
import LuaFltk.Compiler.Upvalues
import LuaFltk.Frozen.Decrypt
import LuaFltk.Frozen.Load
import LuaFltk.Func.Linked
import LuaFltk.Func.Loops
import LuaFltk.Func.Open
import LuaFltk.Func.Shared
import LuaFltk.Func.UpVal
import LuaFltk.Help.Arrays
import LuaFltk.Help.Cells
import LuaFltk.Help.Fonts
import LuaFltk.Help.Format
import LuaFltk.Help.Names
import LuaFltk.Help.Rows
import LuaFltk.Help.Scan
import LuaFltk.Help.Session
import LuaFltk.Help.Tags
import LuaFltk.Lib.Behaviour
import LuaFltk.Lib.Chain
import LuaFltk.Lib.Compare
import LuaFltk.Lib.Nest
import LuaFltk.Lib.Place
import LuaFltk.Lib.Reader
import LuaFltk.Lib.Ring
import LuaFltk.Lib.Run
import LuaFltk.Lib.Scatter
import LuaFltk.Lib.Search
import LuaFltk.Tables.Brent
import LuaFltk.Tables.NewKey
import LuaFltk.Tables.Next
import LuaFltk.Tables.Node
import LuaFltk.Tables.Rehash
import LuaFltk.Tables.Runs
import LuaFltk.Vm.CmdCase
import LuaFltk.Vm.Equal
