import Xv6Sume32.Lib.Bytes
import Xv6Sume32.Lib.Memory
import Xv6Sume32.Lib.Loop
import Xv6Sume32.Lib.Run
import Xv6Sume32.X86.Machine
import Xv6Sume32.X86.Decode
import Xv6Sume32.Sume.Token
import Xv6Sume32.Sume.FromIr
import Xv6Sume32.Sume.Verif
import Xv6Sume32.Sume.Program
import Xv6Sume32.Sume.Check
import Xv6Sume32.Sume.ToIr
import Xv6Sume32.Sume.Syntax
import Xv6Sume32.Sume.Proofs.Scan
import Xv6Sume32.Sume.Proofs.Refine
import Xv6Sume32.Sume.Proofs.Blocks
import Xv6Sume32.Sume.Proofs.Paths
import Xv6Sume32.Sume.Proofs.Returns
import Xv6Sume32.Sume.Proofs.Reach
import Xv6Sume32.Asm.Instrs
import Xv6Sume32.Asm.ToAsm
import Xv6Sume32.Asm.Layout
import Xv6Sume32.Asm.Proofs.Encode
import Xv6Sume32.Asm.Proofs.Passes
import Xv6Sume32.Asm.Proofs.Exec
import Xv6Sume32.Asm.Proofs.Shapes
import Xv6Sume32.Asm.Proofs.Sandbox
import Xv6Sume32.Asm.Proofs.FallThrough
import Xv6Sume32.Asm.Proofs.Agree
import Xv6Sume32.Asm.Proofs.Targets
import Xv6Sume32.Asm.Proofs.Bounds
import Xv6Sume32.Sume.Proofs.Safety
import Xv6Sume32.Fs.Log
import Xv6Sume32.Fs.Proofs.Group
import Xv6Sume32.Fs.Proofs.Crash
import Xv6Sume32.Sume.Proofs.Text
import Xv6Sume32.Asm.Proofs.RoundTrip
import Xv6Sume32.Fs.Inode
import Xv6Sume32.Fs.Proofs.Owner
import Xv6Sume32.Fs.Proofs.Blocks
import Xv6Sume32.Fs.Proofs.Files
import Xv6Sume32.Lib.Ring
import Xv6Sume32.Proc.Pipe
import Xv6Sume32.Lib.Own
import Xv6Sume32.Proc.Proofs.Pipe
import Xv6Sume32.Proc.Table
import Xv6Sume32.Proc.Tree
import Xv6Sume32.Proc.Proofs.Tree
import Xv6Sume32.Proc.Proofs.Kill
import Xv6Sume32.Fs.Mkfs
import Xv6Sume32.Fs.Proofs.Append
import Xv6Sume32.Fs.Proofs.Mkfs
import Xv6Sume32.Vm.Machine
import Xv6Sume32.Vm.Proofs.Frames
import Xv6Sume32.Vm.Proofs.Image
import Xv6Sume32.Lib.Outcome
import Xv6Sume32.Vm.Proofs.Space
import Xv6Sume32.Vm.Proofs.Holders
import Xv6Sume32.Vm.Proofs.Isolation
import Xv6Sume32.Vm.Proofs.Boot
import Xv6Sume32.Vm.Proofs.Shape
import Xv6Sume32.Vm.Proofs.Sbrkx
import Xv6Sume32.Asm.Proofs.Arith
import Xv6Sume32.Asm.Proofs.Heights
import Xv6Sume32.Asm.Proofs.Leave
import Xv6Sume32.Asm.Proofs.Calls
import Xv6Sume32.Lib.Refs
import Xv6Sume32.Proc.Ftable
import Xv6Sume32.Proc.Proofs.Ftable
import Xv6Sume32.Fs.Bio
import Xv6Sume32.Fs.Icache
import Xv6Sume32.Fs.Proofs.Bio
import Xv6Sume32.Fs.Proofs.Icache
import Xv6Sume32.Fs.Dir
import Xv6Sume32.Sume.Proofs.Numerals
import Xv6Sume32.Sume.Reader
import Xv6Sume32.Sume.Proofs.Reader
import Xv6Sume32.Sume.DynArr
import Xv6Sume32.Sume.Proofs.DynArr
import Xv6Sume32.Sume.Proofs.Redeclare
import Xv6Sume32.Asm.Proofs.Origin
import Xv6Sume32.Asm.Proofs.Heap
import Xv6Sume32.Vm.Proofs.Copyout
import Xv6Sume32.Vm.Proofs.Placed
import Xv6Sume32.Vm.Proofs.Twins
import Xv6Sume32.Vm.Proofs.Fresh
import Xv6Sume32.Sume.Operators
import Xv6Sume32.Fs.Proofs.Dir
import Xv6Sume32.Vm.Exec
import Xv6Sume32.Vm.Proofs.Load
import Xv6Sume32.Proc.Console
import Xv6Sume32.Fs.Filewrite
import Xv6Sume32.Clib.Memmove
import Xv6Sume32.Sume.Proofs.Complete
import Xv6Sume32.Fs.Proofs.Path
import Xv6Sume32.Proc.Sleeplock
import Xv6Sume32.Proc.Spinlock
