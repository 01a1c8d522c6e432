import Xlibc.Base.Run
import Xlibc.Base.HoleHeap
import Xlibc.Base.Chain
import Xlibc.Base.ClassMap
import Xlibc.Xheap.Correct
import Xlibc.Xheap.Refused
import Xlibc.Xheap.Traverse
import Xlibc.Xarray.Correct
import Xlibc.Xarray.Extents
import Xlibc.Xarray.Split
import Xlibc.Xarray.Writes
import Xlibc.Xarray.Search
import Xlibc.Xhash.Correct
import Xlibc.Xhash.Ownership
import Xlibc.Xhash.Buffer
import Xlibc.Xbitmap.Correct
import Xlibc.Xbitmap.FindEmpty
import Xlibc.Xbitmap.Text
import Xlibc.Xipcmsg.Recv
import Xlibc.Xipcmsg.Close
import Xlibc.Xipcmsg.Udp
import Xlibc.Xtrace2.Correct
import Xlibc.Xtrace.Correct
import Xlibc.Xalloc.Account
import Xlibc.Xalloc.Threads
import Xlibc.Xqueue.Capacity
import Xlibc.Xqueue.Lock
import Xlibc.Xfcfg.Comment
import Xlibc.Xfcfg.Size
import Xlibc.Xcharstr.Compare
import Xlibc.Xcharstr.Copy
import Xlibc.Xcharstr.Token
import Xlibc.Xcrc8.Table
import Xlibc.Xipaddr.Subnet
import Xlibc.Xmac.Step
import Xlibc.Xmac.Text
import Xlibc.Xdebug.Rotate
import Xlibc.Xdebug.Keep
import Xlibc.Xdebug.Dump
import Xlibc.Xdebug.Color
import Xlibc.Xurl.Bounds
import Xlibc.Xrandom.Range
import Xlibc.Xsocket.Port
import Xlibc.Xfile.Transfer
import Xlibc.Xfile.Read
import Xlibc.Xexccmd.Pipe
import Xlibc.Base64.Codec
import Xlibc.Base64.RoundTrip
import Xlibc.Cjson.Find
import Xlibc.Cjson.Minify
import Xlibc.Cjson.B64String
import Xlibc.Xsha1.Hmac
import Xlibc.Xsha1.Stream
import Xlibc.Xcrc32.Table
import Xlibc.Base.Agenda
import Xlibc.Base.RingEdit
import Xlibc.Eloop.Correct
import Xlibc.Eloop.Flow
import Xlibc.Eloop.Loop
import Xlibc.Eloop.Signal
import Xlibc.Eloop.Timers
import Xlibc.Xqueue.Splice
import Xlibc.Xrandom.Cycle
