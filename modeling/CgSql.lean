import CgSql.Theorems.JumpLaw
import CgSql.Theorems.Assertions
import CgSql.Theorems.ExprSound
import CgSql.Theorems.RoundTrip
import CgSql.Theorems.SqlCode
import CgSql.Theorems.Cursor
import CgSql.Theorems.Nullability
import CgSql.Theorems.Rendering
import CgSql.Theorems.Bools
import CgSql.Theorems.ThreeValued
import CgSql.Theorems.Recreate
import CgSql.Theorems.Backed
import CgSql.Theorems.SelectExists
import CgSql.Theorems.Previous
import CgSql.Theorems.Aliases
import CgSql.Theorems.GenSql
import CgSql.Theorems.GenPrintf
import CgSql.Theorems.Echo
import CgSql.Theorems.Cascade
import CgSql.Theorems.ControlCode
import CgSql.Theorems.LuaCursor
import CgSql.Theorems.Serial
import CgSql.Theorems.CursorBytes
import CgSql.Theorems.Evolution
import CgSql.Theorems.DynCursor
import CgSql.Theorems.BlobStream
import CgSql.Theorems.RowCompare
import CgSql.Theorems.BlobAccess
import CgSql.Theorems.KeyUpdate
import CgSql.Theorems.ValUpdate
import CgSql.Theorems.ValSize
import CgSql.Theorems.FieldIds
import CgSql.Theorems.RecreateRun
import CgSql.Theorems.Splitting
import CgSql.Theorems.Regions
import CgSql.Theorems.LuaFragments
import CgSql.Theorems.LuaPartition
import CgSql.Theorems.LuaExpr
import CgSql.Theorems.LuaCompare
import CgSql.Theorems.LuaRebuild
import CgSql.Theorems.LuaStream
import CgSql.Theorems.GroupDeps
import CgSql.Theorems.ReferencedKeys
import CgSql.Theorems.RecursiveCte
import CgSql.Theorems.EvalDefined
import CgSql.Theorems.Folding
import CgSql.Theorems.Quoting
import CgSql.Theorems.Dictionary
import CgSql.Theorems.Switch
import CgSql.Theorems.Lists
import CgSql.Theorems.SymbolTable
import CgSql.Theorems.Codecs
import CgSql.Theorems.Printf
import CgSql.Theorems.SqlTokens
import CgSql.Theorems.JsonQuoting
import CgSql.Theorems.MustReturn
import CgSql.Theorems.Unsub
import CgSql.Theorems.Varint
import CgSql.Theorems.Interfaces
import CgSql.Theorems.OutArgs
import CgSql.Theorems.DummyTest
import CgSql.Theorems.Columns
import CgSql.Theorems.DummyData
import CgSql.Theorems.Enums
